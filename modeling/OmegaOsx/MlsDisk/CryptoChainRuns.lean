import OmegaOsx.Lib.Run
import OmegaOsx.MlsDisk.Symbolic

/-!
# Runs of the crypto chain

Any appends and trims on a new chain.
-/

namespace OmegaOsx.MlsDisk

open CryptoChain Symbolic List

variable {Key Iv Mac : Type} [Inhabited Mac] {C : Crypto Key Iv Mac}
  {init : List (ChainBlock Iv Mac)} {hist more : List (Iv × Bytes)} {c c' : CryptoChain Key Iv Mac}

variable (C) in
/-- A call on the chain, labelled with what it appends. `trim` asserts that a block is left. -/
inductive ChainStep :
    CryptoChain Key Iv Mac → List (Iv × Bytes) → CryptoChain Key Iv Mac → Prop
  | append {c c' iv buf} (done : c.append C iv buf = .ok c') : ChainStep c [(iv, buf)] c'
  | trim {c before} (asserted : before < c.stop) : ChainStep c [] (c.trim before)

/-- The chain after `hist` was appended; the block the next one is chained to is still there. -/
structure ChainInv.Linked (C : Crypto Key Iv Mac) (init : List (ChainBlock Iv Mac)) (key : Key)
    (hist : List (Iv × Bytes)) (c : CryptoChain Key Iv Mac) : Prop where
  inv : ChainInv C init hist c
  linked : c.start < hist.length ∨ hist = []
  key_eq : c.key = key

namespace ChainInv.Linked

variable {key : Key}

theorem step (h : Linked C init key hist c) (step : ChainStep C c more c') : Linked C init key (hist ++ more) c' := by
  cases step with
  | append done =>
    obtain ⟨inv, start, key_eq⟩ := append_inv h.inv h.linked done
    refine ⟨inv, .inl ?_, key_eq.trans h.key_eq⟩
    have := h.inv.start_le
    rw [length_append, length_singleton]
    omega
  | trim asserted =>
    rw [h.inv.stop_eq] at asserted
    obtain ⟨inv, key_eq⟩ := trim_inv h.inv asserted.le
    rw [append_nil]
    refine ⟨inv, ?_, key_eq.trans h.key_eq⟩
    unfold trim
    split
    · exact h.linked
    · exact .inl asserted

theorem run {steps : List (List (Iv × Bytes))} (run : Labelled.Run (ChainStep C) c steps c')
    (h : Linked C init key hist c) : Linked C init key (hist ++ steps.flatten) c' := by
  induction run generalizing hist with
  | nil => simpa using h
  | cons first _ ih =>
    rw [flatten_cons, ← append_assoc]
    exact ih (h.step first)

end ChainInv.Linked

/-- As long as the live range fits the ring, recovering from any block of it yields exactly the blocks
appended from there on. What the ring held before was not encrypted with the key of the chain. -/
theorem CryptoChain.recover_run [DecidableEq Mac] (ideal : C.Ideal) {key : Key}
    (foreign : ∀ b ∈ init, b.Foreign C key) {steps : List (List (Iv × Bytes))}
    (run : Labelled.Run (ChainStep C) (new ((BlockRing.new init).setCursor 0) key) steps c)
    (live : c.len ≤ init.length) {p : Nat} (started : c.start ≤ p) (lt : p < c.stop) :
    ∃ r, (Recovery.new (BlockRing.new c.log.storage) key p).Yields C
      ((steps.flatten.drop p).map Prod.snd) r ∧ r.start = p ∧ r.stop = c.stop := by
  unfold len at live
  have pos : 0 < init.length := by omega
  obtain ⟨inv, -, rfl⟩ := ChainInv.Linked.run run ⟨.new pos, .inr rfl, rfl⟩
  rw [nil_append] at inv
  have stop_eq := inv.stop_eq
  have inside : p < steps.flatten.length := by omega
  exact ⟨_, inv.recovery_yields ideal foreign inside (by omega), rfl, stop_eq.symm⟩

/-- A ring of one block, so that the second block overwrites the first. -/
theorem recover_run_lap : ∃ (c : CryptoChain UInt8 Nat Bytes) (r : _),
    (Recovery.new (BlockRing.new c.log.storage) 0 1).Yields cipher [[2]] r ∧ r.start = 1 ∧ r.stop = c.stop := by
  have foreign : ∀ b ∈ [blankBlock], b.Foreign cipher 0 := blank_foreign (n := 1) (b := 0) 0
  exact ⟨_, recover_run cipher_ideal foreign
    (.cons (.append (show append _ _ 0 [1] = .ok _ by with_unfolding_all rfl))
      (.cons (.append (show append _ _ 1 [2] = .ok _ by with_unfolding_all rfl))
        (.cons (.trim (show 1 < 2 by decide)) (.nil _))))
    (by decide) le_rfl (by decide)⟩

variable [DecidableEq Mac] {r r' : Recovery Key Iv Mac} {payloads : List Bytes}

/-- A recovery that ends with the last MAC of a chain: each MAC determines its block and the MAC before it. -/
theorem Recovery.Yields.suffix (ideal : C.Ideal) (yields : r.Yields C payloads r')
    (last : r'.macs.getLast? = some (macBefore C r.key default hist hist.length)) :
    ∃ i ≤ hist.length, payloads = (hist.drop i).map Prod.snd ∧
      ∀ mac ∈ r.macs.getLast?, mac = macBefore C r.key default hist i := by
  induction yields with
  | done => exact ⟨_, le_rfl, by simp, by simp [last]⟩
  | more first _ ih =>
    unfold next at first
    iterate 2
      split at first
      · cases first
    split at first
    · cases first
    next decrypts =>
    split at first
    · cases first
    next chained =>
    cases first
    obtain ⟨i, le, rfl, linked⟩ := ih last
    have mac := (congrArg Prod.snd (ideal.authentic _ _ _ _ _ _ decrypts)).trans (linked _ getLast?_concat)
    cases i with
    -- the first block of the chain is chained to the zero MAC, which no block has
    | zero => exact absurd mac (ideal.mac_ne_default _ _ _ _)
    | succ i =>
      rw [macBefore_succ le] at mac
      obtain ⟨rfl, -, -, pre⟩ := ideal.mac_inj _ _ _ _ _ _ _ _ mac
      refine ⟨i, Nat.le_of_succ_le le, by rw [drop_eq_getElem_cons le, map_cons], fun mac mem => ?_⟩
      rw [← Option.some.inj pre]
      simpa [Option.mem_def.mp mem] using chained

/-- Whatever is on the disk: if a recovery from any position ends with the last MAC of the chain, it
has yielded the last of the payloads that were appended, unchanged and in order. -/
theorem CryptoChain.recover_any_disk (ideal : C.Ideal) {key : Key}
    {steps : List (List (Iv × Bytes))} (pos : 0 < init.length)
    (run : Labelled.Run (ChainStep C) (new ((BlockRing.new init).setCursor 0) key) steps c)
    {log : BlockRing (ChainBlock Iv Mac)} {p : Nat} {mac : Mac} (yields : (Recovery.new log key p).Yields C payloads r)
    (last : r.macs.getLast? = some mac) (kept : c.macs.getLast? = some mac) :
    payloads <:+ steps.flatten.map Prod.snd := by
  obtain ⟨inv, linked, rfl⟩ := ChainInv.Linked.run run ⟨.new pos, .inr rfl, rfl⟩
  have lastMac := inv.lastMac linked
  rw [kept, Option.getD_some] at lastMac
  subst lastMac
  obtain ⟨i, -, rfl, -⟩ := yields.suffix ideal last
  exact (drop_suffix i _).map _

/-- The two blocks have been swapped on the disk. -/
theorem recover_any_disk_swapped : ∃ log r, (Recovery.new log 0 0).Yields cipher [[2]] r ∧
    [[2]] <:+ [[1], ([2] : Bytes)] := by
  have run := Labelled.Run.cons
    (ChainStep.append (show append cipher (new ((BlockRing.new [blankBlock]).setCursor 0) 0) 0 [1] =
    .ok _ by with_unfolding_all rfl)) (.single (.append (show append _ _ 1 [2] = .ok _ by with_unfolding_all rfl)))
  have yields := Recovery.Yields.more (show Recovery.next cipher
    (.new (.new (sealChain cipher 0 default [(0, [1]), (1, [2])]).reverse) 0 0) = some
    (_, [2]) by with_unfolding_all rfl)
    (.done (by with_unfolding_all rfl))
  exact ⟨_, _, yields, recover_any_disk cipher_ideal (by decide) run yields rfl rfl⟩

end OmegaOsx.MlsDisk
