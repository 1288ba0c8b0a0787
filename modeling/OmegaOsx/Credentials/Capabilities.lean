import OmegaOsx.Credentials.Basic
import OmegaOsx.Lib.Run
import OmegaOsx.MlsDisk.Basic

/-!
# Capabilities under changes of user IDs and under `capset`

Two rules for the capabilities of a thread, and where the source departs from them.

1. Capabilities are given up with root: `capRules_iff`. `set_uid` and `set_resuid` follow the rules of
   `capabilities(7)`. `set_reuid` stores the saved ID after `set_resuid_unchecked` has adjusted the
   capabilities, so that a thread that leaves root behind keeps its permitted set, and `set_fsuid` of
   a privileged thread does not adjust anything.
2. The permitted set only shrinks and bounds the effective set: `capset_run_bounded`. The changes of
   user IDs keep that; `sys_capset` asks for `SETPCAP` only and takes over any two masks.
-/

set_option linter.dupNamespace false

namespace OmegaOsx.Credentials

open Credentials CapSet MlsDisk

variable {s s' : Credentials}

namespace Credentials

/-! ### What the unchecked setters store -/

theorem adjustCapabilities_eq (oldRuid oldEuid oldSuid : Uid) :
    s.adjustCapabilities oldRuid oldEuid oldSuid = { s with
        inheritableCapset :=
          if s.leavesRoot oldRuid oldEuid oldSuid && !s.keepCapabilities then .empty else s.inheritableCapset
        permittedCapset :=
          if s.leavesRoot oldRuid oldEuid oldSuid && !s.keepCapabilities then .empty else s.permittedCapset
        effectiveCapset := if s.leavesRoot oldRuid oldEuid oldSuid then .empty
          else if oldEuid.isRoot && !s.euid.isRoot then .empty
          else if !oldEuid.isRoot && s.euid.isRoot then s.permittedCapset
          else s.effectiveCapset } := by
  unfold adjustCapabilities
  cases s.leavesRoot oldRuid oldEuid oldSuid with
  | true => cases keep : s.keepCapabilities <;> simp [keep]
  | false => cases oldEuid.isRoot <;> cases new : s.euid.isRoot <;> simp [new]

theorem setFsuidUnchecked_eq (fsuid : Uid) : s.setFsuidUnchecked fsuid = { s with
        fsuid
        effectiveCapset :=
          if s.fsuid.isRoot && !fsuid.isRoot then s.effectiveCapset.diff .fileSystem else s.effectiveCapset } := by
  unfold setFsuidUnchecked
  split <;> rfl

end Credentials

/-! ### Giving up root -/

/-- The calls that change user IDs. -/
inductive UidCall
  | setUid (uid : Uid)
  | setReuid (ruid euid : Option Uid)
  | setResuid (ruid euid suid : Option Uid)
  | setFsuid (fsuid : Option Uid)
  deriving DecidableEq

/-- What a call returns, without the old ID of `set_fsuid`. -/
def UidCall.exec (s : Credentials) : UidCall → Except Error Credentials
  | .setUid uid => .ok (s.setUid uid)
  | .setReuid ruid euid => s.setReuid ruid euid
  | .setResuid ruid euid suid => s.setResuid ruid euid suid
  | .setFsuid fsuid => (s.setFsuid fsuid).map (·.2)

/-- The rules of `capabilities(7)` for a change of user IDs from `s` to `s'`. -/
structure CapRules (s s' : Credentials) : Prop where
  allNonroot : s.keepCapabilities = false → (s.ruid.isRoot || s.euid.isRoot || s.suid.isRoot) = true →
    s'.ruid.isRoot = false → s'.euid.isRoot = false → s'.suid.isRoot = false →
    s'.permittedCapset = .empty ∧ s'.effectiveCapset = .empty
  effective : s.euid.isRoot = true → s'.euid.isRoot = false → s'.effectiveCapset = .empty
  fileSystem : s.fsuid.isRoot = true → s'.fsuid.isRoot = false → s'.effectiveCapset.Apart .fileSystem

theorem CapRules.refl (s : Credentials) : CapRules s s := by
  refine ⟨?_, ?_, ?_⟩
  · intro _ had ruid euid suid
    rw [ruid, euid, suid] at had
    cases had
  · intro root other
    rw [root] at other
    cases other
  · intro root other
    rw [root] at other
    cases other

/-- `set_reuid` moves the saved ID away from root's with the real and the effective one, after the adjustment. -/
structure LateSuid (s : Credentials) (ruid euid : Option Uid) : Prop where
  perm : s.checkUidPerm ruid euid none false = .ok ()
  suid : s.suid.isRoot = true
  moves : s.shouldSetSuid ruid euid = true
  ruid : (ruid.getD s.ruid).isRoot = false
  euid : (euid.getD s.euid).isRoot = false

/-- The calls after which the capabilities are as they should be. -/
def Adjusts (s : Credentials) : UidCall → Prop
  | .setUid _ => True
  | .setResuid _ _ _ => True
  | .setReuid ruid euid => s.keepCapabilities = false → LateSuid s ruid euid →
      s.permittedCapset = .empty ∧
        (s.euid.isRoot = true ∨ s.effectiveCapset = .empty ∨
          s.fsuid.isRoot = true ∧ s.effectiveCapset ⊆ .fileSystem)
  | .setFsuid fsuid => ∀ new, fsuid = some new → s.isPrivileged = true → s.fsuid.isRoot = true →
      new.isRoot = false → s.effectiveCapset.Apart .fileSystem

/-- The unchecked setters follow the rules when the three IDs are stored before the adjustment. -/
theorem CapRules.resuid (ruid euid suid : Option Uid) (fsuid : Uid) :
    CapRules s ((s.setResuidUnchecked ruid euid suid).setFsuidUnchecked fsuid) := by
  rw [setFsuidUnchecked_eq, setResuidUnchecked, adjustCapabilities_eq]
  refine ⟨?_, ?_, ?_⟩
  · intro keep had newRuid newEuid newSuid
    simp_all [leavesRoot, diff_eq_empty_iff, empty_subset]
  · intro root other
    simp_all [diff_eq_empty_iff, empty_subset]
  · intro root other
    simp only [root, other, Bool.not_false, Bool.and_self]
    exact diff_apart

theorem capRules_setUid (uid : Uid) : CapRules s (s.setUid uid) := by
  unfold setUid
  split_ifs with root
  · exact .resuid (some uid) (some uid) (some uid) uid
  · exact .refl s
  · exact .resuid none (some uid) none uid

theorem capRules_setResuid (ruid euid suid : Option Uid) : CapRules s (after s (s.setResuid ruid euid suid)) := by
  unfold setResuid
  cases s.checkUidPerm ruid euid suid true with
  | error e => exact .refl s
  | ok _ => exact .resuid ruid euid suid _

theorem capRules_setFsuid_iff (fsuid : Option Uid) :
    CapRules s (after s ((s.setFsuid fsuid).map (·.2))) ↔ Adjusts s (.setFsuid fsuid) := by
  cases fsuid with
  | none => exact iff_of_true (.refl s) (fun new eq => by cases eq)
  | some fsuid =>
    simp only [setFsuid]
    split_ifs with root other
    · -- the privileged case stores the ID and nothing else
      constructor
      · rintro rules new ⟨⟩ _ old new
        exact rules.fileSystem old new
      intro adjusts
      refine ⟨?_, ?_, fun old new => adjusts _ rfl root old new⟩
      · exact (CapRules.refl s).allNonroot
      · exact (CapRules.refl s).effective
    · exact iff_of_true (.refl s) (fun _ _ privileged => absurd privileged root)
    · refine iff_of_true ⟨?_, ?_, ?_⟩ (fun _ _ privileged => absurd privileged root)
      all_goals simp only [Except.map, after_ok, setFsuidUnchecked_eq]
      · intro keep had ruid euid suid
        rw [ruid, euid, suid] at had
        cases had
      · intro old new
        rw [old] at new
        cases new
      · intro old new
        simp only [old, new, Bool.not_false, Bool.and_self]
        exact diff_apart

/-- What `set_reuid` stores before the saved ID. -/
def beforeSuid (s : Credentials) (ruid euid : Option Uid) : Credentials :=
  (s.setResuidUnchecked ruid euid none).setFsuidUnchecked (s.setResuidUnchecked ruid euid none).euid

section

variable (ruid euid : Option Uid)
include ruid euid

theorem setReuid_eq :
    s.setReuid ruid euid = (s.checkUidPerm ruid euid none false).map fun _ =>
      if s.shouldSetSuid ruid euid then { beforeSuid s ruid euid with suid := (beforeSuid s ruid euid).euid }
      else beforeSuid s ruid euid := by
  unfold setReuid beforeSuid
  cases s.checkUidPerm ruid euid none false with
  | error e => rfl
  | ok _ =>
    refine congrArg Except.ok ?_
    cases s.shouldSetSuid ruid euid with
    | false => rfl
    | true =>
      simp only [if_true, setFsuidUnchecked_eq]

theorem beforeSuid_euid : (beforeSuid s ruid euid).euid = euid.getD s.euid := by
  rw [beforeSuid, setFsuidUnchecked_eq, setResuidUnchecked, adjustCapabilities_eq]

theorem beforeSuid_ruid : (beforeSuid s ruid euid).ruid = ruid.getD s.ruid := by
  rw [beforeSuid, setFsuidUnchecked_eq, setResuidUnchecked, adjustCapabilities_eq]

theorem beforeSuid_suid : (beforeSuid s ruid euid).suid = s.suid := by
  rw [beforeSuid, setFsuidUnchecked_eq, setResuidUnchecked, adjustCapabilities_eq]
  rfl

end

variable {ruid euid : Option Uid} {pid : UInt32}

/-- While the saved ID is root's, the permitted set stays. -/
theorem beforeSuid_permitted (suid : s.suid.isRoot = true) :
    (beforeSuid s ruid euid).permittedCapset = s.permittedCapset := by
  simp [beforeSuid, setFsuidUnchecked_eq, setResuidUnchecked, adjustCapabilities_eq, leavesRoot, suid]

theorem beforeSuid_effective_eq_empty_iff (suid : s.suid.isRoot = true) (new : (euid.getD s.euid).isRoot = false) :
    (beforeSuid s ruid euid).effectiveCapset = .empty ↔
      s.euid.isRoot = true ∨ s.effectiveCapset = .empty ∨ s.fsuid.isRoot = true ∧
      s.effectiveCapset ⊆ .fileSystem := by
  cases old : s.euid.isRoot <;> cases fsuid : s.fsuid.isRoot <;>
    simp [beforeSuid, setFsuidUnchecked_eq, setResuidUnchecked,
      adjustCapabilities_eq, leavesRoot, suid, new, old, fsuid, diff_eq_empty_iff,
      empty_subset]
  rintro eq
  exact eq ▸ empty_subset

theorem capRules_setReuid_iff (ruid euid : Option Uid) :
    CapRules s (after s (s.setReuid ruid euid)) ↔ Adjusts s (.setReuid ruid euid) := by
  have rules : CapRules s (beforeSuid s ruid euid) := .resuid ruid euid none _
  rw [setReuid_eq]
  cases perm : s.checkUidPerm ruid euid none false with
  | error e => exact iff_of_true (.refl s) fun _ late => absurd (perm.symm.trans late.perm) (by simp)
  | ok _ =>
    cases moves : s.shouldSetSuid ruid euid with
    | false => exact iff_of_true rules fun _ late => absurd (moves.symm.trans late.moves) (by simp)
    | true =>
      constructor
      · intro rules keep late
        have had : (s.ruid.isRoot || s.euid.isRoot || s.suid.isRoot) = true := by rw [late.suid, Bool.or_true]
        have euid' : (beforeSuid s ruid euid).euid.isRoot = false := by rw [beforeSuid_euid, late.euid]
        have ruid' : (beforeSuid s ruid euid).ruid.isRoot = false := by rw [beforeSuid_ruid, late.ruid]
        obtain ⟨permitted, effective⟩ := rules.allNonroot keep had ruid' euid' euid'
        exact ⟨(beforeSuid_permitted late.suid).symm.trans permitted,
          (beforeSuid_effective_eq_empty_iff late.suid late.euid).mp effective⟩
      · intro adjusts
        refine ⟨?_, rules.effective, rules.fileSystem⟩
        intro keep had newRuid newEuid _
        cases suid : s.suid.isRoot with
        | false => exact rules.allNonroot keep had newRuid newEuid (by rw [beforeSuid_suid, suid])
        | true =>
          have newRuid : (ruid.getD s.ruid).isRoot = false := by rwa [← beforeSuid_ruid]
          have newEuid : (euid.getD s.euid).isRoot = false := by rwa [← beforeSuid_euid]
          obtain ⟨permitted, effective⟩ := adjusts keep ⟨perm, suid, moves, newRuid, newEuid⟩
          exact ⟨(beforeSuid_permitted suid).trans permitted,
            (beforeSuid_effective_eq_empty_iff suid newEuid).mpr effective⟩

/-- A call follows the rules exactly if it is not `set_reuid` moving the saved ID away from root's or `set_fsuid` of a
privileged thread leaving root's, or there is nothing left to give up. -/
theorem capRules_iff (s : Credentials) (call : UidCall) : CapRules s (after s (call.exec s)) ↔ Adjusts s call := by
  cases call with
  | setUid uid => exact iff_of_true (capRules_setUid uid) trivial
  | setReuid ruid euid => exact capRules_setReuid_iff ruid euid
  | setResuid ruid euid suid => exact iff_of_true (capRules_setResuid ruid euid suid) trivial
  | setFsuid fsuid => exact capRules_setFsuid_iff fsuid

/-- A thread of root with all capabilities that becomes user 1000 by `setreuid(1000, 1000)` keeps its permitted set. -/
theorem setReuid_keeps_permitted :
    let root := Credentials.new ⟨0⟩ ⟨0⟩ (.fromBitsTruncate capMask)
    let user := after root (UidCall.exec root (.setReuid (some ⟨1000⟩) (some ⟨1000⟩)))
    user.ruid = ⟨1000⟩ ∧ user.euid = ⟨1000⟩ ∧ user.suid = ⟨1000⟩ ∧ root.keepCapabilities = false ∧
      user.permittedCapset = .fromBitsTruncate capMask ∧ ¬ CapRules root user := by
  refine ⟨rfl, rfl, rfl, rfl, by decide +kernel, fun rules => ?_⟩
  have permitted := (rules.allNonroot rfl rfl rfl rfl rfl).1
  exact absurd permitted (by decide +kernel)

/-! ### The permitted set as a bound -/

/-- The capabilities of `s'` come from `s`, and the effective ones are permitted. -/
structure Bounded (s s' : Credentials) : Prop where
  effective : s'.effectiveCapset ⊆ s'.permittedCapset
  permitted : s'.permittedCapset ⊆ s.permittedCapset

theorem Bounded.refl (init : s.effectiveCapset ⊆ s.permittedCapset) : Bounded s s := ⟨init, subset_refl _⟩

theorem Bounded.trans {t : Credentials} (h : Bounded s s') (h' : Bounded s' t) : Bounded s t :=
  ⟨h'.effective, subset_trans h'.permitted h.permitted⟩

theorem Bounded.resuidUnchecked (ruid euid suid : Option Uid) (h : Bounded s s') :
    Bounded s (s'.setResuidUnchecked ruid euid suid) := by
  rw [setResuidUnchecked, adjustCapabilities_eq]
  generalize leavesRoot _ _ _ _ = leaves
  refine ⟨?_, ?_⟩
  · cases leaves with
    | true => exact empty_subset
    | false =>
      simp only [Bool.false_and, Bool.false_eq_true, if_false]
      split_ifs
      · exact empty_subset
      · exact subset_refl _
      · exact h.effective
  · dsimp only
    split_ifs
    · exact empty_subset
    · exact h.permitted

theorem Bounded.fsuidUnchecked (fsuid : Uid) (h : Bounded s s') : Bounded s (s'.setFsuidUnchecked fsuid) := by
  rw [setFsuidUnchecked_eq]
  refine ⟨?_, h.permitted⟩
  split_ifs
  · exact subset_trans diff_subset h.effective
  · exact h.effective

theorem Bounded.exec {call : UidCall} (init : s.effectiveCapset ⊆ s.permittedCapset) :
    Bounded s (after s (call.exec s)) := by
  have start := Bounded.refl init
  cases call with
  | setUid uid =>
    simp only [UidCall.exec, setUid]
    split_ifs
    · exact (start.resuidUnchecked _ _ _).fsuidUnchecked _
    · exact start
    · exact (start.resuidUnchecked _ _ _).fsuidUnchecked _
  | setReuid ruid euid =>
    simp only [UidCall.exec, setReuid_eq]
    have before : Bounded s (beforeSuid s ruid euid) := (start.resuidUnchecked _ _ _).fsuidUnchecked _
    cases s.checkUidPerm ruid euid none false with
    | error e => exact start
    | ok _ =>
      split_ifs
      · exact ⟨before.effective, before.permitted⟩
      · exact before
  | setResuid ruid euid suid =>
    simp only [UidCall.exec, setResuid]
    cases s.checkUidPerm ruid euid suid true with
    | error e => exact start
    | ok _ => exact (start.resuidUnchecked _ _ _).fsuidUnchecked _
  | setFsuid fsuid =>
    cases fsuid with
    | none => exact start
    | some fsuid =>
      simp only [UidCall.exec, setFsuid]
      split_ifs
      · exact ⟨start.effective, start.permitted⟩
      · exact start
      · exact start.fsuidUnchecked _

/-- A call of `capset` that is rejected, or whose masks are within the bounds. -/
def Within (s : Credentials) (pid : UInt32) (header : Except Error CapUserHeader)
    (data : Except Error CapUserData) : Prop :=
  ∀ h d, header = .ok h → checkCapset s pid h = .ok () → data = .ok d →
    CapSet.fromBitsTruncate (makeKernelCap d.effective 0) ⊆ CapSet.fromBitsTruncate (makeKernelCap d.permitted 0) ∧
    CapSet.fromBitsTruncate (makeKernelCap d.permitted 0) ⊆ s.permittedCapset

theorem bounded_sysCapset_iff {header : Except Error CapUserHeader} {data : Except Error CapUserData}
    (init : s.effectiveCapset ⊆ s.permittedCapset) :
    Bounded s (after s (sysCapset s pid header data)) ↔ Within s pid header data := by
  have start := Bounded.refl init
  unfold sysCapset
  cases header with
  | error e => exact iff_of_true start fun h d eq => by cases eq
  | ok header =>
    cases check : checkCapset s pid header with
    | error e =>
      simp only [ok_bind, check]
      refine iff_of_true start fun h d eq pass => ?_
      cases eq
      exact absurd (check.symm.trans pass) (by simp)
    | ok _ =>
      cases data with
      | error e =>
        simp only [ok_bind, check]
        exact iff_of_true start fun h d _ _ eq => by cases eq
      | ok data =>
        simp only [ok_bind, check]
        constructor
        · rintro bounded h d ⟨⟩ _ ⟨⟩
          exact ⟨bounded.effective, bounded.permitted⟩
        · intro within
          obtain ⟨effective, permitted⟩ := within header data rfl check rfl
          exact ⟨effective, permitted⟩

/-- The calls of a thread that change capabilities. -/
inductive CapOp
  | capset (header : Except Error CapUserHeader) (data : Except Error CapUserData)
  | uid (call : UidCall)

/-- Calls of a thread of process `pid`, those of `capset` within the bounds. -/
inductive CapStep (pid : UInt32) : Credentials → CapOp → Credentials → Prop
  | capset {s : Credentials} {header : Except Error CapUserHeader} {data : Except Error CapUserData}
      (within : Within s pid header data) : CapStep pid s (.capset header data) (after s (sysCapset s pid header data))
  | uid (s : Credentials) (call : UidCall) : CapStep pid s (.uid call) (after s (call.exec s))

theorem CapStep.bounded {op : CapOp} (init : s.effectiveCapset ⊆ s.permittedCapset)
    (step : CapStep pid s op s') : Bounded s s' := by
  cases step with
  | capset within => exact (bounded_sysCapset_iff init).mpr within
  | uid call => exact .exec init

/-- In every run whose calls of `capset` are within the bounds, the effective set stays within the permitted set and the
permitted set within the first one. -/
theorem capset_run_bounded {pid : UInt32} {ops : List CapOp} (init : s.effectiveCapset ⊆ s.permittedCapset)
    (run : Labelled.Run (CapStep pid) s ops s') : Bounded s s' := by
  have keep : ∀ t op t', Bounded s t → CapStep pid t op t' → Bounded s t' :=
    fun t op t' bounded step => bounded.trans (step.bounded bounded.effective)
  exact run.invariant keep (.refl init)

/-- A thread of process 1 that may only set capabilities. -/
def setter : Credentials := .new ⟨1000⟩ ⟨1000⟩ .setpcap

/-- It drops what it has by `capset`, and changes its IDs. -/
theorem capset_run_bounded_setter : ∃ s', Bounded setter s' ∧ s'.permittedCapset = .empty := by
  have within : Within setter 1 (.ok ⟨linuxCapabilityVersion3, 0⟩) (.ok ⟨0, 0, 0⟩) := by
    rintro h d _ _ ⟨⟩
    decide +kernel
  refine ⟨_, capset_run_bounded (by decide +kernel)
    (.cons (.capset within) (.cons (.uid _ (.setUid ⟨1000⟩)) (.nil _))), ?_⟩
  decide +kernel

/-- It gives itself every capability that fits into the mask. -/
theorem capset_gains :
    let s' := after setter (sysCapset setter 1 (.ok ⟨linuxCapabilityVersion3, 0⟩) (.ok ⟨0xffffffff, 0x100, 0⟩))
    setter.effectiveCapset ⊆ setter.permittedCapset ∧ ¬ s'.effectiveCapset ⊆ s'.permittedCapset ∧
      let s'' := after setter (sysCapset setter 1 (.ok ⟨linuxCapabilityVersion3, 0⟩)
        (.ok ⟨0xffffffff, 0xffffffff, 0⟩))
      ¬ s''.permittedCapset ⊆ setter.permittedCapset := by
  decide +kernel

end OmegaOsx.Credentials
