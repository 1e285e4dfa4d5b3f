import ShitUndo.Events

/-!
# Inverse ops and plans

`InverseOp`, `PlanNode`, `Conflict` and `UndoPlan` of `inverse.rs`: what `shit undo` executes.
A plan is a flat list of nodes in execution order. Each node carries one op, the cohort it may
run in, and at most one conflict found while planning.
-/

namespace ShitUndo

structure OptDiff where
  name : String
  pre : String
  post : String
deriving DecidableEq, Repr

/-- `AliasDiff` and `FuncDiff`, which have the same fields. -/
structure AliasDiff where
  name : String
  pre : Option String
  post : Option String
deriving DecidableEq, Repr

/-- `NativeDelegation`: roll a package transaction back with the package manager's own verb. -/
structure NativeDelegation where
  argv : List String
  privileged : Bool
  guardCommand : Option (List String)
  guardMatch : Option String
deriving DecidableEq, Repr

structure DescriptorGuardOp where
  command : List String
  expectedSubstring : String
deriving DecidableEq, Repr

inductive AwsOp where
  | s3Cp (bucket key : String)
  | s3Rm (bucket key : String)
  | ec2Terminate (instanceId : String)
  | ec2Stop (instanceId : String)
deriving DecidableEq, Repr

inductive RollbackHint where
  | sqlite (path : PathBuf) (fileBlob : Option BlobHash)
  | postgres (pitrRecommended : Bool) (walPosition : Option String)
      (statementsForReview : List String)
  | mysql (binlogPosition : Option String) (statementsForReview : List String)
  | none
deriving DecidableEq, Repr

/-- `InverseOp`: one reversal step. -/
inductive InverseOp where
  | restoreContent (inode : InodeRef) (path : PathBuf) (blob : BlobHash)
  | restoreMetadata (inode : InodeRef) (path : PathBuf) (target : FileMetadata)
  | unlink (path : PathBuf)
  | recreatePath (path : PathBuf) (kind : FileKind) (mode : Nat)
  | rename (src dst : PathBuf)
  | createSymlink (target : String) (path : PathBuf)
  | createHardlink (source target : PathBuf)
  | setEnv (name value : String)
  | unsetEnv (name : String)
  | packageRollback (manager : PackageManager) (originalOp : PackageOpKind)
      (packagesBefore packagesAfter : List (String × String)) (repoStateHint : Option String)
      (delegation : Option NativeDelegation)
  | networkRollback (tool : NetworkTool) (beforeState : Bytes)
      (inverseInvocations : List (List String))
  | systemdRollback (scope : SystemdScope) (unit : String) (before after : ServiceState)
  | processNote (argv : List String) (cwd : PathBuf) (envSummary : List (String × String))
      (message : String)
  | descriptorReverse (descriptorName : String) (descriptorVersion : Nat)
      (capturedState : List (String × String)) (reverseArgv : List String)
      (privileged requiresConfirmation : Bool) (guardOp : Option DescriptorGuardOp)
  | kubectlReverse (context : String) (ns : Option String) (op : KubectlOp)
      (capturedYaml : Bytes) (requiresConfirmation : Bool)
  | ghReverse (op : GhOp) (capturedJson : Bytes) (requiresConfirmation : Bool)
  | awsReverse (service : String) (op : AwsOp) (capturedState : List (String × String))
      (stashedContentHash : Option BlobHash) (requiresConfirmation : Bool)
  | terraformReverse (workdir : PathBuf) (op : TerraformOp) (priorState : Bytes)
      (planJson : Option Bytes) (requiresConfirmation : Bool)
  | dbNote (engine : DbEngine) (target : String) (statements : List String)
      (rollbackHint : RollbackHint)
  | fileExtend (path : PathBuf) (truncateTo : Nat)
  | shellStateRestore (pwdBefore : Option PathBuf) (optsDiff : List OptDiff)
      (aliasesDiff funcsDiff : List AliasDiff)
      (snippetBash snippetZsh snippetFish : Option String)
  | containerRestore (runtime : ContainerRuntime) (op : ContainerOp) (capturedConfig : Bytes)
      (stashImage : Option String) (stashTarball : Option BlobHash)
      (requiresConfirmation : Bool)
  | refuse (cls reason : String) (remediation : Option String)
  | restoreFlags (inode : InodeRef) (path : PathBuf) (flags : Nat)
deriving DecidableEq, Repr

inductive InverseTier where
  | files | env | packages | network | services | processes | descriptor | cloud | container
  | shellState | database | refuse
deriving DecidableEq, Repr

namespace InverseOp

def primaryPath : InverseOp → Option PathBuf
  | restoreContent _ path _ => some path
  | restoreMetadata _ path _ => some path
  | restoreFlags _ path _ => some path
  | unlink path => some path
  | recreatePath path _ _ => some path
  | createSymlink _ path => some path
  | fileExtend path _ => some path
  | createHardlink _ target => some target
  | rename _ dst => some dst
  | _ => none

def tier : InverseOp → InverseTier
  | restoreContent _ _ _ => .files
  | restoreMetadata _ _ _ => .files
  | restoreFlags _ _ _ => .files
  | unlink _ => .files
  | recreatePath _ _ _ => .files
  | rename _ _ => .files
  | createSymlink _ _ => .files
  | createHardlink _ _ => .files
  | fileExtend _ _ => .files
  | setEnv _ _ => .env
  | unsetEnv _ => .env
  | packageRollback _ _ _ _ _ _ => .packages
  | networkRollback _ _ _ => .network
  | systemdRollback _ _ _ _ => .services
  | processNote _ _ _ _ => .processes
  | descriptorReverse _ _ _ _ _ _ _ => .descriptor
  | kubectlReverse _ _ _ _ _ => .cloud
  | ghReverse _ _ _ => .cloud
  | awsReverse _ _ _ _ _ => .cloud
  | terraformReverse _ _ _ _ _ => .cloud
  | containerRestore _ _ _ _ _ _ => .container
  | shellStateRestore _ _ _ _ _ _ _ => .shellState
  | dbNote _ _ _ _ => .database
  | refuse _ _ _ => .refuse

/-- The op is a `RestoreContent` on `p`, whatever its inode and blob. -/
def IsRestoreContentOn (op : InverseOp) (p : PathBuf) : Prop :=
  ∃ inode blob, op = .restoreContent inode p blob

end InverseOp

inductive Conflict where
  | soft (detail : String)
  | hard (detail : String)
  | missing (detail : String)
  | phantom (detail : String)
deriving DecidableEq, Repr

/-- The conflict is `Hard`, the only kind the orchestrator takes over from the plan. -/
def Conflict.isHard : Conflict → Bool
  | hard _ => true
  | _ => false

structure PlanNode where
  op : InverseOp
  cohort : Nat
  conflict : Option Conflict
deriving DecidableEq, Repr

namespace PlanNode

/-- A node as the planner pushes it, before cohorts are assigned. -/
def fresh (op : InverseOp) (conflict : Option Conflict) : PlanNode :=
  { op := op, cohort := 0, conflict := conflict }

/-- The plan-time conflict of the node is `Hard`. -/
def hasHard (node : PlanNode) : Bool :=
  node.conflict.any Conflict.isHard

@[simp] theorem fresh_op (op : InverseOp) (c : Option Conflict) : (fresh op c).op = op := rfl

@[simp] theorem fresh_conflict (op : InverseOp) (c : Option Conflict) :
    (fresh op c).conflict = c := rfl

end PlanNode

inductive PlanWarning where
  | partialEvents (dropped : Nat)
  | unclosedCommand
  | informational (tier : InverseTier) (message : String)
deriving DecidableEq, Repr

structure UndoPlan where
  command : CommandRecord
  nodes : List PlanNode
  warnings : List PlanWarning
deriving DecidableEq, Repr

end ShitUndo
