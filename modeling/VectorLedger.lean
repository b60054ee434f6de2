import VectorLedger.Theorems.Equation
import VectorLedger.Theorems.Reconcile
import VectorLedger.Theorems.Snapshot
import VectorLedger.Theorems.NonNegative
import VectorLedger.Theorems.Import
import VectorLedger.Theorems.ImportRows
import VectorLedger.Theorems.Restore
import VectorLedger.Theorems.Unchanged
import VectorLedger.Theorems.Reversals
import VectorLedger.Theorems.Lifecycle
import VectorLedger.Theorems.Undo
import VectorLedger.Theorems.Currencies
import VectorLedger.Theorems.Pages
import VectorLedger.Theorems.Cut
import VectorLedger.Theorems.Damage
import VectorLedger.Theorems.Flusher
import VectorLedger.Theorems.RotationCrash
import VectorLedger.Theorems.Tamper
import VectorLedger.Theorems.PendingFile
import VectorLedger.Theorems.AuditTorn
import VectorLedger.Theorems.Lockout
import VectorLedger.Theorems.Limits
import VectorLedger.Theorems.Pgwire
import VectorLedger.Theorems.Passwords
import VectorLedger.Theorems.Revocation
import VectorLedger.Theorems.SqlRows
import VectorLedger.Theorems.Acks
import VectorLedger.Theorems.Replicas
import VectorLedger.Theorems.Cluster
import VectorLedger.Theorems.Evidence
import VectorLedger.Theorems.BackupFrame
import VectorLedger.Theorems.ChainRange
import VectorLedger.Theorems.Divergence
import VectorLedger.Theorems.PageSlots
import VectorLedger.Theorems.Kept
