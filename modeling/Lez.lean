import Lez.Ledger.Conservation
import Lez.Ledger.DoubleSpend
import Lez.Ledger.MembershipProofs
import Lez.Ledger.Ownership
import Lez.Ledger.PrivateAuthorization
import Lez.Ledger.PrivateConservation
import Lez.Ledger.Replay
import Lez.Ledger.Signing
import Lez.Ledger.ValidityWindows
import Lez.Ledger.VaultIsolation
import Lez.Multisig.Enrollment
import Lez.Multisig.Payout
import Lez.Multisig.Independence
import Lez.Multisig.Registry
import Lez.Multisig.Release
import Lez.Multisig.Treasury
import Lez.Wallet.Delivery
import Lez.Wallet.Restoration
import Lez.Wallet.SharedAccounts
import Lez.Lib.Borsh
import Lez.Lib.Checked
import Lez.Programs.Token
import Lez.Programs.Amm
import Lez.Programs.AmmFacts
import Lez.Amm.Swaps
import Lez.Programs.TokenFacts
import Lez.Trace.CallLimits
import Lez.Trace.Callees
import Lez.Amm.Liquidity
import Lez.Amm.Redemption
import Lez.Trace.Owned
import Lez.Token.Shapes
import Lez.Token.Books
import Lez.Token.Supply
import Lez.Token.Moves
import Lez.Trace.Rounds
import Lez.Amm.PoolRuns
import Lez.Amm.PoolRounds
import Lez.Amm.Solvency
import Lez.Ledger.Consent
import Lez.Ledger.PrivateAuthority
import Lez.Amm.Pools
import Lez.Node.Block
import Lez.Indexer.Completeness
import Lez.Indexer.Pages
import Lez.Indexer.Redelivery
import Lez.Sequencer.Interleaving
import Lez.Lib.Store
import Lez.Node.SameLedger
import Lez.Node.Agreement
import Lez.Sequencer.Core
import Lez.Sequencer.Production
import Lez.Sequencer.Halting
import Lez.Sequencer.Limits
import Lez.Sequencer.Withdrawals
import Lez.Sequencer.Deposits
import Lez.Sequencer.Crediting
import Lez.Sequencer.Checkpoints
