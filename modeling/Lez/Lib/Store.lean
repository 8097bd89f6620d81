/-
Programs over a database of cells, such as RocksDB, of which nothing but this
is modelled: a read gives what was written last, and a batch is written as a
whole. A program reads cells one at a time and ends, with one atomic write of
a batch or without. Alone it is a function of the database (`run`). Several
tasks, each running its own programs in turn, interleave read by read and
write by write (`Run`); what a program writes was computed from what it read,
however the cells have changed since.

An interleaving in which no batch touches a cell that a program still under
way has read is no different from running the programs one after another, in
the order they ended (`Run.serial`).
-/
import Mathlib.Logic.Function.Basic

namespace Lez.Store

section
variable {κ : Type} (V : κ → Type)

/-- The value of every cell that has one. -/
abbrev Db : Type := (k : κ) → Option (V k)

/-- Puts and deletes, in order. -/
abbrev Batch : Type := List ((k : κ) × Option (V k))

/-- A program that answers an `α`. -/
inductive Prog (α : Type) : Type
  | ret (answer : α)
  | get (k : κ) (next : Option (V k) → Prog α)
  | commit (batch : Batch V) (answer : α)

end

variable {κ : Type} [DecidableEq κ] {V : κ → Type} {α β ι : Type} [DecidableEq ι]

def Db.write (db : Db V) (batch : Batch V) : Db V := batch.foldl (fun db w => Function.update db w.1 w.2) db

theorem Db.write_cons (db : Db V) (w : (k : κ) × Option (V k)) (batch : Batch V) :
    db.write (w :: batch) = Db.write (Function.update db w.1 w.2) batch := rfl

theorem Db.write_append (db : Db V) (batch batch' : Batch V) :
    db.write (batch ++ batch') = (db.write batch).write batch' := List.foldl_append

theorem Db.write_singleton (db : Db V) (k : κ) (v : Option (V k)) : db.write [⟨k, v⟩] k = v := Function.update_self ..

/-- A cell the batch does not name. -/
theorem Db.write_other {k : κ} : ∀ {batch : Batch V} (db : Db V), (∀ w ∈ batch, w.1 ≠ k) → db.write batch k = db k
  | [], _, _ => rfl
  | w :: batch, db, h => by
    have ih := Db.write_other (Function.update db w.1 w.2) fun w' hw' => h w' (List.mem_cons_of_mem _ hw')
    rw [Db.write_cons, ih, Function.update_of_ne (h w List.mem_cons_self).symm]

/-- A cell after a batch depends on that cell alone. -/
theorem Db.write_congr {k : κ} : ∀ (batch : Batch V) {db db' : Db V}, db k = db' k → db.write batch k = db'.write batch k
  | [], _, _, h => h
  | w :: batch, db, db', h => by
    rw [Db.write_cons, Db.write_cons]
    refine Db.write_congr batch ?_
    by_cases hk : k = w.1
    · subst hk
      rw [Function.update_self, Function.update_self]
    · rw [Function.update_of_ne hk, Function.update_of_ne hk, h]

theorem Db.write_unnamed {k : κ} {batch : Batch V} (db : Db V) (h : ∀ v, ⟨k, v⟩ ∉ batch) : db.write batch k = db k := by
  refine Db.write_other db ?_
  intro w hw he
  obtain ⟨k', v⟩ := w
  obtain rfl : k' = k := he
  exact h v hw

/-- A cell the batch gives one value, however often it names it. -/
theorem Db.write_of_mem {k : κ} {v : Option (V k)} : ∀ {batch : Batch V} (db : Db V), ⟨k, v⟩ ∈ batch →
    (∀ v', ⟨k, v'⟩ ∈ batch → v' = v) → db.write batch k = v
  | w :: batch, db, hmem, hall => by
    rw [Db.write_cons]
    by_cases hlater : ∃ v', ⟨k, v'⟩ ∈ batch
    · obtain ⟨v', hv'⟩ := hlater
      have he : v' = v := hall v' (List.mem_cons_of_mem _ hv')
      exact Db.write_of_mem _ (he ▸ hv') fun v'' hv'' => hall v'' (List.mem_cons_of_mem _ hv'')
    · rcases List.mem_cons.mp hmem with rfl | hmem
      · rw [Db.write_other, Function.update_self]
        intro w hw he
        subst he
        exact hlater ⟨w.2, hw⟩
      · exact absurd ⟨v, hmem⟩ hlater

namespace Prog

/-- The program by itself: what it leaves and what it answers. -/
def run : Prog V α → Db V → Db V × α
  | ret answer, db => (db, answer)
  | get k next, db => (next (db k)).run db
  | commit batch answer, db => (db.write batch, answer)

/-- The programs one after another. -/
def runAll (ps : List (Prog V α)) (db : Db V) : Db V := ps.foldl (fun db p => (p.run db).1) db

/-- **Programs one after another**, each begun where a condition holds, and what each answered. -/
inductive Serial {o : Type} (prog : o → Prog V α) (C : Db V → o → Prop) (db : Db V) : List (o × α) → Db V → Prop
  | nil : Serial prog C db [] db
  | snoc {trace : List (o × α)} {db' : Db V} (op : o) : Serial prog C db trace db' → C db' op →
      Serial prog C db (trace ++ [(op, ((prog op).run db').2)]) ((prog op).run db').1

/-- The program has read these cells of the database and this is what is left of it. -/
inductive Reached (db : Db V) : Prog V α → List κ → Prog V α → Prop
  | refl (p : Prog V α) : Reached db p [] p
  | get {p : Prog V α} {reads : List κ} {k : κ} {next : Option (V k) → Prog V α} :
      Reached db p reads (.get k next) → Reached db p (k :: reads) (next (db k))

/-- The rest of the program does what the whole would do now. -/
theorem Reached.run_eq {db : Db V} {p q : Prog V α} {reads : List κ} (h : Reached db p reads q) :
    q.run db = p.run db := by
  induction h with
  | refl => rfl
  | get _ ih => exact ih

omit [DecidableEq κ] in
/-- It matters only what was read. -/
theorem Reached.congr {db db' : Db V} {p q : Prog V α} {reads : List κ} (h : Reached db p reads q)
    (hsame : ∀ k ∈ reads, db' k = db k) : Reached db' p reads q := by
  induction h with
  | refl => exact .refl _
  | @get reads k next _ ih =>
    have hk := hsame k List.mem_cons_self
    rw [← hk]
    exact (ih fun k' hk' => hsame k' (List.mem_cons_of_mem _ hk')).get

end Prog

/-! ## Tasks -/

/-- The database, what is left of each task's programs, and the cells the one under way has read. -/
structure Config (V : κ → Type) (α ι : Type) where
  db : Db V
  tasks : ι → List (Prog V α)
  reads : ι → List κ

/-- All tasks about to start. -/
def Config.start (db : Db V) (tasks : ι → List (Prog V α)) : Config V α ι := ⟨db, tasks, fun _ => []⟩

/-- **Interleavings** in which every write meets a condition on where it is made. -/
inductive Run (C : Config V α ι → ι → Batch V → Prop) : Config V α ι → Config V α ι → Prop
  | refl (c : Config V α ι) : Run C c c
  | ret {c c' : Config V α ι} {i : ι} {answer : α} {rest : List (Prog V α)} : c.tasks i = .ret answer :: rest →
      Run C ⟨c.db, Function.update c.tasks i rest, Function.update c.reads i []⟩ c' → Run C c c'
  | get {c c' : Config V α ι} {i : ι} {k : κ} {next : Option (V k) → Prog V α} {rest : List (Prog V α)} :
      c.tasks i = .get k next :: rest →
      Run C ⟨c.db, Function.update c.tasks i (next (c.db k) :: rest), Function.update c.reads i (k :: c.reads i)⟩ c' →
      Run C c c'
  | commit {c c' : Config V α ι} {i : ι} {batch : Batch V} {answer : α} {rest : List (Prog V α)} :
      c.tasks i = .commit batch answer :: rest → C c i batch →
      Run C ⟨c.db.write batch, Function.update c.tasks i rest, Function.update c.reads i []⟩ c' → Run C c c'

/-- No other task has read a cell of the batch and not ended its program yet. -/
def Undisturbing (c : Config V α ι) (i : ι) (batch : Batch V) : Prop :=
  ∀ j, j ≠ i → ∀ w ∈ batch, w.1 ∉ c.reads j

/-- The programs each task began with: the one under way has come this far against the database as it is now. -/
def Current (c : Config V α ι) (began : ι → List (Prog V α)) : Prop :=
  ∀ i, began i = c.tasks i ∧ c.reads i = [] ∨
    ∃ p q rest, began i = p :: rest ∧ c.tasks i = q :: rest ∧ p.Reached c.db (c.reads i) q

section
variable {c : Config V α ι} {began : ι → List (Prog V α)} {i : ι} {q : Prog V α} {rest : List (Prog V α)}

omit [DecidableEq κ] [DecidableEq ι] in
/-- The program under way and what it was. -/
theorem Current.head (h : Current c began) (hq : c.tasks i = q :: rest) :
    ∃ p, began i = p :: rest ∧ p.Reached c.db (c.reads i) q := by
  rcases h i with ⟨hsame, hnone⟩ | ⟨p, q', rest', hbegan, htasks, hreached⟩
  · exact ⟨q, hsame.trans hq, hnone ▸ .refl q⟩
  · cases hq.symm.trans htasks
    exact ⟨p, hbegan, hreached⟩

omit [DecidableEq κ] in
/-- A program ends: the others have still read what is there. -/
theorem Current.next (h : Current c began) {db : Db V}
    (hsame : ∀ j, j ≠ i → ∀ k ∈ c.reads j, db k = c.db k) :
    Current ⟨db, Function.update c.tasks i rest, Function.update c.reads i []⟩ (Function.update began i rest) := by
  intro j
  by_cases hj : j = i
  · subst hj
    exact .inl (by simp)
  · simp only [Function.update_of_ne hj]
    rcases h j with hfresh | ⟨p, q, rest', hbegan, htasks, hreached⟩
    · exact .inl hfresh
    · exact .inr ⟨p, q, rest', hbegan, htasks, hreached.congr (hsame j hj)⟩

omit [DecidableEq κ] in
/-- A program reads on. -/
theorem Current.get (h : Current c began) {k : κ} {next : Option (V k) → Prog V α}
    (hq : c.tasks i = .get k next :: rest) :
    Current ⟨c.db, Function.update c.tasks i (next (c.db k) :: rest), Function.update c.reads i (k :: c.reads i)⟩
      began := by
  intro j
  by_cases hj : j = i
  · subst hj
    obtain ⟨p, hbegan, hreached⟩ := h.head hq
    exact .inr ⟨p, next (c.db k), rest, hbegan, by simp, by simpa using hreached.get⟩
  · simp only [Function.update_of_ne hj]
    exact h j

end

/-- All tasks' items, in an order that keeps each task's own. -/
def Merges (order : List (ι × β)) (tasks : ι → List β) : Prop :=
  ∀ i, (order.filter fun e => e.1 = i).map (·.2) = tasks i

/-- The next item of a task, then the others. -/
theorem Merges.cons {order : List (ι × β)} {tasks : ι → List β} {i : ι} {p : β} {rest : List β}
    (h : Merges order (Function.update tasks i rest)) (hi : tasks i = p :: rest) : Merges ((i, p) :: order) tasks := by
  intro j
  have hj := h j
  by_cases he : i = j
  · subst he
    simp only [decide_true, List.filter_cons_of_pos, List.map_cons, hj, Function.update_self, hi]
  · rw [Function.update_of_ne (Ne.symm he)] at hj
    simp only [he, decide_false, Bool.false_eq_true, not_false_eq_true, List.filter_cons_of_neg, hj]

theorem Merges.of_map {γ : Type} {f : β → γ} : ∀ {order : List (ι × γ)} {tasks : ι → List β},
    Merges order (fun i => (tasks i).map f) →
      ∃ order' : List (ι × β), Merges order' tasks ∧ order = order'.map fun e => (e.1, f e.2)
  | [], tasks, h => by
    refine ⟨[], ?_, rfl⟩
    intro i
    exact (List.map_eq_nil_iff.mp (h i).symm).symm
  | (i, c) :: order, tasks, h => by
    have hi := h i
    simp only [decide_true, List.filter_cons_of_pos, List.map_cons] at hi
    obtain ⟨b, rest, htask, rfl, hrest⟩ := List.map_eq_cons_iff.mp hi.symm
    have hmerges : Merges order fun j => (Function.update tasks i rest j).map f := by
      intro j
      dsimp only
      by_cases hj : j = i
      · subst hj
        rw [Function.update_self, hrest]
      · have htasks := h j
        rw [List.filter_cons_of_neg (by simpa using Ne.symm hj)] at htasks
        rw [Function.update_of_ne hj, htasks]
    obtain ⟨order', horder, rfl⟩ := Merges.of_map hmerges
    exact ⟨(i, b) :: order', horder.cons htask, rfl⟩

theorem Run.serial_of_current {c c' : Config V α ι} (h : Run Undisturbing c c') (hdone : ∀ i, c'.tasks i = []) :
    ∀ {began : ι → List (Prog V α)}, Current c began →
      ∃ order, Merges order began ∧ c'.db = Prog.runAll (order.map (·.2)) c.db := by
  induction h with
  | refl c =>
    intro began hcurrent
    refine ⟨[], ?_, rfl⟩
    intro i
    rcases hcurrent i with ⟨hsame, -⟩ | ⟨p, q, rest, -, htasks, -⟩
    · rw [hsame, hdone i]
      rfl
    · rw [hdone i] at htasks
      cases htasks
  | @ret c c' i answer rest hq _ ih =>
    intro began hcurrent
    obtain ⟨p, hbegan, hreached⟩ := hcurrent.head hq
    obtain ⟨order, hmerges, hdb⟩ := ih hdone (hcurrent.next fun _ _ _ _ => rfl)
    refine ⟨(i, p) :: order, hmerges.cons hbegan, ?_⟩
    have hrun : p.run c.db = (c.db, answer) := hreached.run_eq.symm
    rw [hdb, List.map_cons, Prog.runAll, Prog.runAll, List.foldl_cons, hrun]
  | get hq _ ih =>
    intro began hcurrent
    exact ih hdone (hcurrent.get hq)
  | @commit c c' i batch answer rest hq hundisturbing _ ih =>
    intro began hcurrent
    obtain ⟨p, hbegan, hreached⟩ := hcurrent.head hq
    have hsame : ∀ j, j ≠ i → ∀ k ∈ c.reads j, c.db.write batch k = c.db k := by
      intro j hj k hk
      refine Db.write_other c.db ?_
      intro w hw he
      exact hundisturbing j hj w hw (he ▸ hk)
    obtain ⟨order, hmerges, hdb⟩ := ih hdone (hcurrent.next hsame)
    refine ⟨(i, p) :: order, hmerges.cons hbegan, ?_⟩
    have hrun : p.run c.db = (c.db.write batch, answer) := hreached.run_eq.symm
    rw [hdb, List.map_cons, Prog.runAll, Prog.runAll, List.foldl_cons, hrun]

/-- **Undisturbed interleavings are serial.** -/
theorem Run.serial {db : Db V} {tasks : ι → List (Prog V α)} {c : Config V α ι}
    (h : Run Undisturbing (.start db tasks) c) (hdone : ∀ i, c.tasks i = []) :
    ∃ order, Merges order tasks ∧ c.db = Prog.runAll (order.map (·.2)) db :=
  h.serial_of_current hdone fun _ => .inl ⟨rfl, rfl⟩

/-! ## Schedules -/

/-- The next step of a task. -/
def Config.step (c : Config V α ι) (i : ι) : Config V α ι :=
  match c.tasks i with
  | [] => c
  | .ret _ :: rest => ⟨c.db, Function.update c.tasks i rest, Function.update c.reads i []⟩
  | .get k next :: rest =>
    ⟨c.db, Function.update c.tasks i (next (c.db k) :: rest), Function.update c.reads i (k :: c.reads i)⟩
  | .commit batch _ :: rest => ⟨c.db.write batch, Function.update c.tasks i rest, Function.update c.reads i []⟩

/-- Every write of the schedule meets the condition. -/
def Config.Meets (C : Config V α ι → ι → Batch V → Prop) : List ι → Config V α ι → Prop
  | [], _ => True
  | i :: schedule, c =>
    (∀ batch answer rest, c.tasks i = .commit batch answer :: rest → C c i batch) ∧ (c.step i).Meets C schedule

/-- A schedule is an interleaving. -/
theorem run_of_schedule {C : Config V α ι → ι → Batch V → Prop} : ∀ (schedule : List ι) {c : Config V α ι},
    c.Meets C schedule → Run C c (schedule.foldl Config.step c)
  | [], c, _ => .refl c
  | i :: schedule, c, h => by
    have ih := run_of_schedule schedule h.2
    rw [List.foldl_cons]
    unfold Config.step at ih ⊢
    split at ih
    next hnil => simpa [hnil] using ih
    next hq => simpa [hq] using Run.ret hq ih
    next hq => simpa [hq] using Run.get hq ih
    next hq => simpa [hq] using Run.commit hq (h.1 _ _ _ hq) ih

theorem Config.meets_true : ∀ (schedule : List ι) (c : Config V α ι), c.Meets (fun _ _ _ => True) schedule
  | [], _ => trivial
  | i :: schedule, c => ⟨fun _ _ _ _ => trivial, Config.meets_true schedule (c.step i)⟩

end Lez.Store
