import OmegaOsx.Credentials.Capabilities

/-!
# Identities that a thread without privileges can take

A thread whose effective user ID is not root's only moves the IDs it holds between their places: each of the calls below
checks its arguments against the old IDs. The exception is `set_gid`, which stores any group ID.
-/

set_option linter.dupNamespace false

namespace OmegaOsx.Credentials

open List Credentials

namespace Credentials

def uids (s : Credentials) : List Uid := [s.ruid, s.euid, s.suid, s.fsuid]

def gids (s : Credentials) : List Gid := [s.rgid, s.egid, s.sgid, s.fsgid]

end Credentials

variable {s s' t : Credentials}

/-- Every ID of `s'` is one of `s`. -/
structure NoNewIds (s s' : Credentials) : Prop where
  uids : s'.uids ⊆ s.uids
  gids : s'.gids ⊆ s.gids

theorem NoNewIds.refl (s : Credentials) : NoNewIds s s := ⟨List.Subset.refl _, List.Subset.refl _⟩

theorem rgid_mem (s : Credentials) : s.rgid ∈ s.gids := by simp [gids]

theorem egid_mem (s : Credentials) : s.egid ∈ s.gids := by simp [gids]

theorem sgid_mem (s : Credentials) : s.sgid ∈ s.gids := by simp [gids]

theorem NoNewIds.trans (h : NoNewIds s s') (h' : NoNewIds s' t) : NoNewIds s t :=
  ⟨List.Subset.trans h'.uids h.uids, List.Subset.trans h'.gids h.gids⟩

/-- An ID that passes the check is held already. -/
theorem mem_of_checkOld {Id : Type} [DecidableEq Id] {new : Option Id} {old : List Id} {msg : String} (current : Id)
    (pass : checkOld new old msg = .ok ()) (mem : current ∈ old) : new.getD current ∈ old := by
  cases new with
  | none => exact mem
  | some id =>
    simp only [checkOld] at pass
    split_ifs at pass with held
    exact held

/-- The three checks of `check_uid_perm` and `check_gid_perm`. -/
theorem mem_of_checks {Id : Type} [DecidableEq Id] {r e s fs : Id} {new new' new'' : Option Id} {may : Bool}
    {msg msg' msg'' : String}
    (pass : (do
      checkOld new ([r, e] ++ if may then [s] else []) msg
      checkOld new' [r, e, s] msg'
      checkOld new'' [r, e, s] msg'') = .ok ()) :
    new.getD r ∈ [r, e, s, fs] ∧ new'.getD e ∈ [r, e, s, fs] ∧ new''.getD s ∈ [r, e, s, fs] := by
  obtain ⟨_, first, pass⟩ := MlsDisk.bind_ok.mp pass
  obtain ⟨_, second, third⟩ := MlsDisk.bind_ok.mp pass
  have some : [r, e] ++ (if may then [s] else []) ⊆ [r, e, s] ++ [fs] := by
    cases may <;> simp
  have all : [r, e, s] ⊆ [r, e, s] ++ [fs] := subset_append_left _ _
  exact ⟨some (mem_of_checkOld r first (by simp)), all (mem_of_checkOld e second (by simp)),
    all (mem_of_checkOld s third (by simp))⟩

/-- The user IDs after the unchecked setters. -/
theorem uids_resuid (ruid euid suid : Option Uid) (fsuid : Uid) :
    ((s.setResuidUnchecked ruid euid suid).setFsuidUnchecked fsuid).uids =
      [ruid.getD s.ruid, euid.getD s.euid, suid.getD s.suid, fsuid] := by
  rw [setFsuidUnchecked_eq, setResuidUnchecked, adjustCapabilities_eq]
  rfl

theorem gids_resuid (ruid euid suid : Option Uid) (fsuid : Uid) :
    ((s.setResuidUnchecked ruid euid suid).setFsuidUnchecked fsuid).gids = s.gids := by
  rw [setFsuidUnchecked_eq, setResuidUnchecked, adjustCapabilities_eq]
  rfl

theorem NoNewIds.resuid {ruid euid suid : Option Uid} {fsuid : Uid} (r : ruid.getD s.ruid ∈ s.uids)
    (e : euid.getD s.euid ∈ s.uids) (u : suid.getD s.suid ∈ s.uids) (f : fsuid ∈ s.uids) :
    NoNewIds s ((s.setResuidUnchecked ruid euid suid).setFsuidUnchecked fsuid) := by
  refine ⟨?_, ?_⟩
  · rw [uids_resuid]
    simp only [cons_subset, nil_subset, and_true]
    exact ⟨r, e, u, f⟩
  · rw [gids_resuid]
    exact List.Subset.refl _

/-- The group IDs are stored together, each of them checked before. -/
theorem NoNewIds.gidsOnly {rgid egid sgid fsgid : Gid} (r : rgid ∈ s.gids) (e : egid ∈ s.gids) (g : sgid ∈ s.gids)
    (f : fsgid ∈ s.gids) : NoNewIds s { s with rgid, egid, sgid, fsgid } := by
  refine ⟨List.Subset.refl _, ?_⟩
  simp only [Credentials.gids, cons_subset, nil_subset, and_true]
  exact ⟨r, e, g, f⟩

/-! ### The calls of a thread without privileges -/

section Unprivileged

variable (user : s.isPrivileged = false)
include user

theorem mem_of_checkUidPerm {ruid euid suid : Option Uid} {may : Bool}
    (pass : s.checkUidPerm ruid euid suid may = .ok ()) :
    ruid.getD s.ruid ∈ s.uids ∧ euid.getD s.euid ∈ s.uids ∧ suid.getD s.suid ∈ s.uids := by
  unfold checkUidPerm at pass
  rw [user] at pass
  exact mem_of_checks pass

theorem mem_of_checkGidPerm {rgid egid sgid : Option Gid} {may : Bool}
    (pass : s.checkGidPerm rgid egid sgid may = .ok ()) :
    rgid.getD s.rgid ∈ s.gids ∧ egid.getD s.egid ∈ s.gids ∧ sgid.getD s.sgid ∈ s.gids := by
  unfold checkGidPerm at pass
  rw [user] at pass
  exact mem_of_checks pass

theorem NoNewIds.setUid (uid : Uid) : NoNewIds s (s.setUid uid) := by
  unfold Credentials.setUid
  rw [user, if_neg (by decide)]
  split_ifs with other
  · exact .refl s
  have held : uid ∈ s.uids := by
    simp only [Credentials.uids, mem_cons, not_mem_nil]
    tauto
  exact .resuid (by simp [Credentials.uids]) held (by simp [Credentials.uids]) held

theorem NoNewIds.setReuid (ruid euid : Option Uid) : NoNewIds s (after s (s.setReuid ruid euid)) := by
  rw [setReuid_eq]
  cases pass : s.checkUidPerm ruid euid none false with
  | error e => exact .refl s
  | ok _ =>
    obtain ⟨r, e, u⟩ := mem_of_checkUidPerm user pass
    have new : (s.setResuidUnchecked ruid euid none).euid = euid.getD s.euid := by
      rw [Credentials.setResuidUnchecked, Credentials.adjustCapabilities_eq]
    have before : NoNewIds s (beforeSuid s ruid euid) := .resuid r e u (by rwa [new])
    split_ifs
    · refine ⟨?_, before.gids⟩
      have uids := before.uids
      simp only [Credentials.uids, cons_subset, nil_subset] at uids ⊢
      exact ⟨uids.1, uids.2.1, uids.2.1, uids.2.2.2⟩
    · exact before

theorem NoNewIds.setResuid (ruid euid suid : Option Uid) : NoNewIds s (after s (s.setResuid ruid euid suid)) := by
  unfold Credentials.setResuid
  cases pass : s.checkUidPerm ruid euid suid true with
  | error e => exact .refl s
  | ok _ =>
    obtain ⟨r, e, u⟩ := mem_of_checkUidPerm user pass
    have new : (s.setResuidUnchecked ruid euid suid).euid = euid.getD s.euid := by
      rw [setResuidUnchecked, adjustCapabilities_eq]
    exact .resuid r e u (by rwa [new])

theorem NoNewIds.setFsuid (fsuid : Option Uid) : NoNewIds s (after s ((s.setFsuid fsuid).map (·.2))) := by
  cases fsuid with
  | none => exact .refl s
  | some fsuid =>
    simp only [Credentials.setFsuid]
    rw [user, if_neg (by decide)]
    split_ifs with other
    · exact .refl s
    simp only [Except.map, Credentials.setFsuidUnchecked_eq]
    refine ⟨?_, List.Subset.refl _⟩
    simp only [Credentials.uids, cons_subset, nil_subset, mem_cons, not_mem_nil]
    tauto

theorem NoNewIds.setGid {gid : Gid} (held : gid ∈ s.gids) : NoNewIds s (s.setGid gid) := by
  unfold Credentials.setGid
  rw [user]
  exact .gidsOnly (rgid_mem s) held (sgid_mem s) held

theorem NoNewIds.setRegid (rgid egid : Option Gid) : NoNewIds s (after s (s.setRegid rgid egid)) := by
  unfold Credentials.setRegid
  cases pass : s.checkGidPerm rgid egid none false with
  | error e => exact .refl s
  | ok _ =>
    obtain ⟨r, e, g⟩ := mem_of_checkGidPerm user pass
    split_ifs
    · exact .gidsOnly r e e e
    · exact .gidsOnly r e g e

theorem NoNewIds.setResgid (rgid egid sgid : Option Gid) : NoNewIds s (after s (s.setResgid rgid egid sgid)) := by
  unfold Credentials.setResgid
  cases pass : s.checkGidPerm rgid egid sgid true with
  | error e => exact .refl s
  | ok _ =>
    obtain ⟨r, e, g⟩ := mem_of_checkGidPerm user pass
    exact .gidsOnly r e g e

theorem NoNewIds.setFsgid (fsgid : Option Gid) : NoNewIds s (after s ((s.setFsgid fsgid).map (·.2))) := by
  cases fsgid with
  | none => exact .refl s
  | some fsgid =>
    simp only [Credentials.setFsgid]
    rw [user, if_neg (by decide)]
    split_ifs with other
    · exact .refl s
    have held : fsgid ∈ s.gids := by
      simp only [Credentials.gids, mem_cons, not_mem_nil]
      tauto
    exact .gidsOnly (rgid_mem s) (egid_mem s) (sgid_mem s) held

/-- The argument of `setgid` is rejected, or a group ID that the thread holds. -/
def HoldsGid (s : Credentials) : IdCall → Prop
  | .setgid gid => 0 ≤ gid → Gid.ofArg gid ∈ s.gids
  | _ => True

theorem NoNewIds.sysIdCall {call : IdCall} (holds : HoldsGid s call) : NoNewIds s (after s (sysIdCall s call)) := by
  cases call with
  | setuid uid =>
    simp only [Credentials.sysIdCall]
    split_ifs
    · exact .refl s
    · exact .setUid user _
  | setreuid ruid euid => exact .setReuid user _ _
  | setresuid ruid euid suid => exact .setResuid user _ _ _
  | setfsuid uid => exact .setFsuid user _
  | setgid gid =>
    simp only [Credentials.sysIdCall]
    split_ifs with negative
    · exact .refl s
    · exact .setGid user (holds (Int32.not_lt.mp negative))
  | setregid rgid egid => exact .setRegid user _ _
  | setresgid rgid egid sgid => exact .setResgid user _ _ _
  | setfsgid gid => exact .setFsgid user _

end Unprivileged

/-! ### Runs -/

/-- A system call that does not make the effective user ID root's; the argument of `setgid` is held before. -/
structure IdStep (s : Credentials) (call : IdCall) (s' : Credentials) : Prop where
  eq : s' = after s (sysIdCall s call)
  user : s'.euid.isRoot = false
  holds : HoldsGid s call

/-- A thread without privileges holds no user ID and no group ID that it did not hold at the start. -/
theorem run_keeps_identity {calls : List IdCall} (user : s.euid.isRoot = false)
    (run : Labelled.Run IdStep s calls s') : NoNewIds s s' := by
  have keep : ∀ t call t', NoNewIds s t ∧ t.euid.isRoot = false → IdStep t call t' →
      NoNewIds s t' ∧ t'.euid.isRoot = false := by
    rintro t call t' ⟨held, user⟩ step
    refine ⟨?_, step.user⟩
    rw [step.eq]
    exact held.trans (.sysIdCall user step.holds)
  exact (run.invariant keep ⟨.refl s, user⟩).1

/-- User 1000 with a saved user ID of 1001 and groups 100 and 101. -/
def member : Credentials := { Credentials.new ⟨1000⟩ ⟨100⟩ .empty with suid := ⟨1001⟩, sgid := ⟨101⟩ }

theorem run_keeps_identity_member : ∃ s', NoNewIds member s' ∧ s'.euid = ⟨1001⟩ ∧ s'.fsgid = ⟨101⟩ := by
  have run : Labelled.Run IdStep member [.setresuid (-1) 1001 (-1), .setgid 101] _ :=
    .cons ⟨rfl, by decide +kernel, trivial⟩
      (.cons ⟨rfl, by decide +kernel, fun _ => by decide +kernel⟩ (.nil _))
  exact ⟨_, run_keeps_identity (by decide +kernel) run, by decide +kernel, by decide +kernel⟩

/-- User 1000 takes group 0. -/
theorem setgid_escalates : member.euid.isRoot = false ∧
    (after member (sysIdCall member (.setgid 0))).euid.isRoot = false ∧
    (after member (sysIdCall member (.setgid 0))).egid = ⟨0⟩ ∧
    ¬ NoNewIds member (after member (sysIdCall member (.setgid 0))) := by
  refine ⟨by decide +kernel, by decide +kernel, by decide +kernel, fun held => ?_⟩
  have mem : (⟨0⟩ : Gid) ∈ member.gids := held.gids (by decide +kernel)
  exact absurd mem (by decide +kernel)

end OmegaOsx.Credentials
