import OmegaOsx.Lib.Ring
import OmegaOsx.MlsDisk.Basic

/-!
# The crypto chain

A `CryptoChain` is a log of encrypted blocks over a `BlockRing`. The footer of a block carries its
own MAC and the MAC of the block before it, so that `Recovery` can walk the ring from a given
position and stop where the chain ends.

The bytes of a block are read as a payload area followed by a footer; every block has exactly one
such reading.
-/

namespace OmegaOsx.MlsDisk

open List Option

variable {Key Iv Mac : Type}

/-! ## `BlockRing` -/

/-- A block set used as a ring, with the cursor for appending. -/
structure BlockRing (β : Type) where
  storage : List β
  cursor : Option Nat

namespace BlockRing

variable {β : Type}

def new (storage : List β) : BlockRing β := ⟨storage, none⟩

variable (r : BlockRing β)

def setCursor (cursor : Nat) : BlockRing β := { r with cursor := some cursor }

/-- With no block in the storage the remainder is taken by zero. -/
def read (pos : Nat) : Res β :=
  match r.storage[pos % r.storage.length]? with
  | some b => .ok b
  | none => panicWith "attempt to calculate the remainder with a divisor of zero"

def append (b : β) : Res (BlockRing β) :=
  match r.cursor with
  | none => panicWith "cursor must be set before appending new blocks"
  | some cursor =>
    if r.storage.length = 0 then
      panicWith "attempt to calculate the remainder with a divisor of zero"
    else
      .ok ⟨r.storage.set (cursor % r.storage.length) b, some (cursor + 1)⟩

end BlockRing

/-! ## `CryptoChain` and `Recovery` -/

structure Footer (Iv Mac : Type) where
  len : Nat
  preMac : Mac
  thisMac : Mac
  thisIv : Iv
  deriving DecidableEq

/-- A block of the chain: the payload area and the footer. -/
structure ChainBlock (Iv Mac : Type) where
  payload : Bytes
  footer : Footer Iv Mac
  deriving DecidableEq

/-- `CryptoChain::AVAIL_BLOCK_SIZE`: a footer is a length, two MACs and an IV, of 4, 16, 16 and 12
bytes. -/
def availBlockSize : Nat := blockSize - 48

structure CryptoChain (Key Iv Mac : Type) where
  log : BlockRing (ChainBlock Iv Mac)
  key : Key
  /-- `block_range`. -/
  start : Nat
  stop : Nat
  macs : List Mac

/-- A chain being recovered. -/
structure Recovery (Key Iv Mac : Type) where
  log : BlockRing (ChainBlock Iv Mac)
  key : Key
  start : Nat
  stop : Nat
  macs : List Mac

/-- The block `append` writes: the ciphertext, zeros up to the footer, and the footer. -/
def sealBlock (C : Crypto Key Iv Mac) (key : Key) (iv : Iv) (preMac : Mac) (buf : Bytes) :
    ChainBlock Iv Mac where
  payload := (C.encrypt buf key iv (some preMac)).1 ++ List.replicate (availBlockSize - buf.length) 0
  footer :=
    { len := buf.length
      preMac := preMac
      thisMac := (C.encrypt buf key iv (some preMac)).2
      thisIv := iv }

namespace CryptoChain

variable [Inhabited Mac] (C : Crypto Key Iv Mac)

def new (log : BlockRing (ChainBlock Iv Mac)) (key : Key) : CryptoChain Key Iv Mac :=
  ⟨log, key, 0, 0, []⟩

/-- `block_range().len()`. -/
def len (c : CryptoChain Key Iv Mac) : Nat := c.stop - c.start

/-- `append`; `iv` is the random IV the call draws. -/
def append (c : CryptoChain Key Iv Mac) (iv : Iv) (buf : Bytes) : Res (CryptoChain Key Iv Mac) :=
  if availBlockSize < buf.length then
    fail .outOfDisk "append data is too large"
  else do
    let block := sealBlock C c.key iv (c.macs.getLast?.getD default) buf
    let log ← c.log.append block
    .ok { c with log := log, stop := c.stop + 1, macs := c.macs ++ [block.footer.thisMac] }

def trim (c : CryptoChain Key Iv Mac) (before : Nat) : CryptoChain Key Iv Mac :=
  if before ≤ c.start then c
  else { c with start := before, macs := c.macs.drop (before - c.start) }

end CryptoChain

namespace Recovery

variable (C : Crypto Key Iv Mac)

def new (log : BlockRing (ChainBlock Iv Mac)) (key : Key) (first : Nat) : Recovery Key Iv Mac :=
  ⟨log, key, first, first, []⟩

/-- `Recovery::next`. The previous MAC of the first block is not checked. -/
def next [DecidableEq Mac] (r : Recovery Key Iv Mac) : Option (Recovery Key Iv Mac × Bytes) :=
  match r.log.read r.stop with
  | .error _ => none
  | .ok block =>
    if availBlockSize < block.footer.len then none
    else
      match C.decrypt (block.payload.take block.footer.len) r.key block.footer.thisIv
        (some block.footer.preMac) block.footer.thisMac with
      | none => none
      | some payload =>
        if r.macs.getLast?.any (· ≠ block.footer.preMac) then none
        else some ({ r with stop := r.stop + 1, macs := r.macs ++ [block.footer.thisMac] }, payload)

/-- `open`. -/
def toChain (r : Recovery Key Iv Mac) : CryptoChain Key Iv Mac :=
  ⟨r.log, r.key, r.start, r.stop, r.macs⟩

/-- `r.Yields C payloads r'`: calling `next` until it returns nothing gives `payloads` and leaves
`r'`. -/
inductive Yields [DecidableEq Mac] :
    Recovery Key Iv Mac → List Bytes → Recovery Key Iv Mac → Prop
  | done {r} (stopped : r.next C = none) : Yields r [] r
  | more {r r1 r2 payload rest} (first : r.next C = some (r1, payload))
      (others : Yields r1 rest r2) : Yields r (payload :: rest) r2

end Recovery

/-! ## The chain as a list of everything appended -/

section History

variable (C : Crypto Key Iv Mac) (key : Key)

/-- The blocks that appending a history of IVs and payloads produces, after a block whose MAC is
`pre`. -/
def sealChain : Mac → List (Iv × Bytes) → List (ChainBlock Iv Mac)
  | _, [] => []
  | pre, (iv, buf) :: rest =>
    sealBlock C key iv pre buf :: sealChain (sealBlock C key iv pre buf).footer.thisMac rest

variable (pre : Mac) (hist : List (Iv × Bytes))

/-- The previous MAC recorded in block `i` of `sealChain C key pre hist`. -/
def macBefore : Nat → Mac
  | 0 => pre
  | i + 1 => ((sealChain C key pre hist)[i]?.map (·.footer.thisMac)).getD pre

/-- A block that was not encrypted with the chain's key. -/
def ChainBlock.Foreign (b : ChainBlock Iv Mac) : Prop :=
  C.decrypt (b.payload.take b.footer.len) key b.footer.thisIv (some b.footer.preMac)
    b.footer.thisMac = none

variable {C key}

@[simp] theorem length_sealChain : (sealChain C key pre hist).length = hist.length := by
  induction hist generalizing pre with
  | nil => rfl
  | cons x hist ih => simp [sealChain, ih]

theorem sealChain_getElem? (i : Nat) : (sealChain C key pre hist)[i]? =
      hist[i]?.map fun x => sealBlock C key x.1 (macBefore C key pre hist i) x.2 := by
  induction hist generalizing pre i with
  | nil => simp [sealChain]
  | cons x hist ih =>
    cases i with
    | zero => simp [sealChain, macBefore]
    | succ i =>
      simp only [sealChain, getElem?_cons_succ, ih]
      cases i with
      | zero => simp [macBefore, sealChain]
      | succ i =>
        -- inside the list the fallback of `macBefore` is never used
        rcases lt_or_ge i hist.length with lt | ge
        · simp [macBefore, sealChain, lt]
        · simp [show hist.length ≤ i + 1 by omega]

theorem sealChain_snoc (iv : Iv) (buf : Bytes) : sealChain C key pre (hist ++ [(iv, buf)]) =
      sealChain C key pre hist ++ [sealBlock C key iv (macBefore C key pre hist hist.length) buf] := by
  induction hist generalizing pre with
  | nil => simp [sealChain, macBefore]
  | cons x hist ih =>
    simp only [cons_append, sealChain, ih]
    cases hist with
    | nil => simp [sealChain, macBefore]
    | cons y hist => simp [sealChain, macBefore]

/-- The MAC of the last block appended. -/
theorem getLast?_macs (nonempty : hist ≠ []) : ((sealChain C key pre hist).map (·.footer.thisMac)).getLast? =
      some (macBefore C key pre hist hist.length) := by
  obtain ⟨n, len⟩ : ∃ n, hist.length = n + 1 := Nat.exists_eq_succ_of_ne_zero (by simpa using nonempty)
  rw [getLast?_eq_getElem?]
  simp [macBefore, len]

theorem macBefore_succ {pre : Mac} {hist : List (Iv × Bytes)} {i : Nat} (lt : i < hist.length) :
    macBefore C key pre hist (i + 1) = (C.encrypt hist[i].2 key hist[i].1 (some (macBefore C key pre hist i))).2 := by
  rw [macBefore, sealChain_getElem?, getElem?_eq_getElem lt]
  rfl

/-- The MACs of the chain are distinct: each authenticates the one before it, and the first one the
zero MAC. -/
theorem macBefore_ne [Inhabited Mac] (ideal : C.Ideal) {hist : List (Iv × Bytes)} {i j : Nat}
    (lt : i < j) (le : j ≤ hist.length) :
    macBefore C key default hist i ≠ macBefore C key default hist j := by
  intro same
  induction i generalizing j with
  | zero =>
    obtain ⟨j, rfl⟩ := Nat.exists_eq_succ_of_ne_zero lt.ne'
    rw [macBefore_succ le] at same
    exact ideal.mac_ne_default _ _ _ _ same.symm
  | succ i ih =>
    obtain ⟨j, rfl⟩ := Nat.exists_eq_succ_of_ne_zero (Nat.zero_lt_of_lt lt).ne'
    rw [macBefore_succ (lt.trans_le le).le, macBefore_succ le] at same
    have pre := (ideal.mac_inj _ _ _ _ _ _ _ _ same).2.2.2
    exact ih (Nat.lt_of_succ_lt_succ lt) (Nat.le_of_succ_le le) (some.inj pre)

end History

/-! ## Appending, trimming and recovering -/

section Invariant

variable [Inhabited Mac] {C : Crypto Key Iv Mac} {init : List (ChainBlock Iv Mac)}
  {hist : List (Iv × Bytes)} {c c' : CryptoChain Key Iv Mac}

variable (C init hist c) in
/-- The chain `c` is what is left of appending `hist` over a ring that first held `init`. -/
structure ChainInv (init : List (ChainBlock Iv Mac)) (hist : List (Iv × Bytes))
    (c : CryptoChain Key Iv Mac) : Prop where
  ring : Ring.Holds init c.log.storage (sealChain C c.key default hist)
  cursor : c.log.cursor = some hist.length
  stop_eq : c.stop = hist.length
  start_le : c.start ≤ hist.length
  macs_eq : c.macs = ((sealChain C c.key default hist).map (·.footer.thisMac)).drop c.start
  fits : ∀ x ∈ hist, x.2.length ≤ availBlockSize

theorem ChainInv.new {key : Key} (pos : 0 < init.length) :
    ChainInv C init [] (CryptoChain.new ((BlockRing.new init).setCursor 0) key) where
  ring := .nil pos
  cursor := rfl
  stop_eq := rfl
  start_le := le_refl 0
  macs_eq := rfl
  fits := by simp

section

variable (h : ChainInv C init hist c) (linked : c.start < hist.length ∨ hist = [])
include h linked

/-- The MAC the next block will be chained to is the one of the last block. -/
theorem ChainInv.lastMac : c.macs.getLast?.getD default = macBefore C c.key default hist hist.length := by
  rcases linked with lt | rfl
  · rw [h.macs_eq, getLast?_drop, if_neg (by simpa using lt), getLast?_macs _ _ (by rintro rfl; simp at lt), getD_some]
  · simp [h.macs_eq, sealChain, macBefore]

theorem CryptoChain.append_inv {iv : Iv} {buf : Bytes} (ok : c.append C iv buf = .ok c') :
    ChainInv C init (hist ++ [(iv, buf)]) c' ∧ c'.start = c.start ∧ c'.key = c.key := by
  unfold CryptoChain.append at ok
  split at ok
  · cases ok
  next fits =>
    rw [h.lastMac linked] at ok
    obtain ⟨log, appended, ok⟩ := bind_ok.mp ok
    cases ok
    have ringSize : c.log.storage.length ≠ 0 := by
      rw [h.ring.length_eq]; exact Nat.pos_iff_ne_zero.mp h.ring.pos
    simp only [BlockRing.append, h.cursor, if_neg ringSize] at appended
    cases appended
    refine ⟨⟨?_, ?_, ?_, ?_, ?_, ?_⟩, rfl, rfl⟩
    · have := h.ring.write (sealBlock C c.key iv (macBefore C c.key default hist hist.length) buf)
      rw [← sealChain_snoc, length_sealChain] at this
      rwa [h.ring.length_eq]
    · simp
    · simp [h.stop_eq]
    · have := h.start_le
      simp only [length_append]
      omega
    · simp only [sealChain_snoc, map_append, map_cons, map_nil]
      rw [drop_append_of_le_length (by simpa using h.start_le), ← h.macs_eq]
    · intro x hx
      rcases mem_append.mp hx with old | new
      · exact h.fits x old
      · rw [mem_singleton.mp new]
        exact Nat.le_of_not_lt fits

end

theorem CryptoChain.trim_inv (h : ChainInv C init hist c) {before : Nat} (le : before ≤ hist.length) :
    ChainInv C init hist (c.trim before) ∧ (c.trim before).key = c.key := by
  unfold CryptoChain.trim
  split
  next early => exact ⟨h, rfl⟩
  next late =>
    refine ⟨⟨h.ring, h.cursor, h.stop_eq, le, ?_, h.fits⟩, rfl⟩
    simp only [h.macs_eq, drop_drop]
    congr 1
    omega

theorem drop_macs {key : Key} {i : Nat} (lt : i < hist.length) :
    ((sealChain C key default hist).map (·.footer.thisMac)).drop i =
      macBefore C key default hist (i + 1) ::
        ((sealChain C key default hist).map (·.footer.thisMac)).drop (i + 1) := by
  rw [drop_eq_getElem_cons (by simpa using lt)]
  simp [macBefore, lt]

variable [DecidableEq Mac] {r : Recovery Key Iv Mac} (h : ChainInv C init hist c) (ideal : C.Ideal)
include h ideal

/-- Inside the chain, `next` returns the payload that was appended there. -/
theorem ChainInv.next_inside (storage : r.log.storage = c.log.storage) (key : r.key = c.key) (lt : r.stop < hist.length)
    (lap : hist.length ≤ r.stop + init.length)
    (linked : ∀ mac ∈ r.macs.getLast?, mac = macBefore C c.key default hist r.stop) :
    r.next C = some ({ r with
      stop := r.stop + 1
      macs := r.macs ++ [macBefore C c.key default hist (r.stop + 1)] }, hist[r.stop].2) := by
  have slot := h.ring.recent r.stop (by simpa using lt) (by simpa using lap)
  rw [← h.ring.length_eq, ← storage, sealChain_getElem?, getElem?_eq_getElem lt, map_some] at slot
  have fits := h.fits _ (getElem_mem lt)
  have payload := ideal.decrypt_encrypt hist[r.stop].2 c.key hist[r.stop].1
    (some (macBefore C c.key default hist r.stop))
  have cipher := ideal.length_encrypt hist[r.stop].2 c.key hist[r.stop].1 (some (macBefore C c.key default hist r.stop))
  have chained : (r.macs.getLast?.any (· ≠ macBefore C c.key default hist r.stop)) = false := by
    cases last : r.macs.getLast? with
    | none => rfl
    | some mac => simp [linked mac last]
  simp only [Recovery.next, BlockRing.read, slot, sealBlock, if_neg (not_lt.mpr fits), key]
  rw [take_append_of_le_length (by omega), take_of_length_le (by omega), payload]
  simp only [chained, macBefore_succ lt]
  rfl

variable (foreign : ∀ b ∈ init, b.Foreign C c.key)
include foreign

section

variable (storage : r.log.storage = c.log.storage) (key : r.key = c.key)
include storage key

/-- At the end of the chain, `next` returns nothing: what the ring holds there is from before the
chain or from a lap ago. -/
theorem ChainInv.next_end (stop : r.stop = hist.length)
    (linked : r.macs.getLast? = some (macBefore C c.key default hist hist.length)) :
    r.next C = none := by
  have slots := h.ring.next_slot
  rw [length_sealChain, ← h.ring.length_eq, ← storage] at slots
  simp only [Recovery.next, BlockRing.read, stop, key]
  rcases slots with ⟨lt, slot⟩ | ⟨ge, slot⟩
  · have inside : hist.length < init.length := by rwa [storage, h.ring.length_eq] at lt
    rw [getElem?_eq_getElem inside] at slot
    have garbage := foreign _ (getElem_mem inside)
    rw [ChainBlock.Foreign] at garbage
    simp only [slot, garbage]
    split <;> rfl
  have pos := h.ring.pos
  rw [← h.ring.length_eq, ← storage] at pos
  have old : hist.length - r.log.storage.length < hist.length := by omega
  rw [sealChain_getElem?, getElem?_eq_getElem old, map_some] at slot
  have apart : macBefore C c.key default hist (hist.length - r.log.storage.length) ≠
      macBefore C c.key default hist hist.length := macBefore_ne ideal old le_rfl
  simp only [slot, linked, any_some, decide_eq_true_eq]
  split
  · rfl
  · split
    · rfl
    · exact if_pos (Ne.symm apart)

theorem ChainInv.yields_from (le : r.stop ≤ hist.length) (lap : hist.length ≤ r.stop + init.length)
    (linked : ∀ mac ∈ r.macs.getLast?, mac = macBefore C c.key default hist r.stop)
    (started : r.macs ≠ [] ∨ r.stop < hist.length) :
    r.Yields C ((hist.drop r.stop).map Prod.snd) { r with
      stop := hist.length
      macs := r.macs ++ ((sealChain C c.key default hist).map (·.footer.thisMac)).drop r.stop } := by
  -- the induction is on the number of blocks still ahead
  generalize ahead : hist.length - r.stop = n
  induction n generalizing r with
  | zero =>
    have stop : r.stop = hist.length := by omega
    obtain ⟨mac, last⟩ : ∃ mac, r.macs.getLast? = some mac := by
      rcases started with ne | lt
      · exact ⟨_, getLast?_eq_some_getLast ne⟩
      · omega
    rw [linked mac last, stop] at last
    have ended := h.next_end ideal foreign storage key stop last
    simpa [← stop, drop_eq_nil_of_le, le] using Recovery.Yields.done ended
  | succ n ih =>
    have lt : r.stop < hist.length := by omega
    have first := h.next_inside ideal storage key lt lap linked
    have rest := ih (r := { r with
      stop := r.stop + 1
      macs := r.macs ++ [macBefore C c.key default hist (r.stop + 1)] })
      storage key lt (by simp only; omega) (by simp) (.inl (by simp)) (by simp only; omega)
    rw [drop_eq_getElem_cons lt, drop_macs lt]
    refine .more first ?_
    simpa using rest

end

/-- Recovering from a block of the chain yields the payloads from there to the end of the chain,
provided the ring still holds them all. -/
theorem ChainInv.recovery_yields {first : Nat} (lt : first < hist.length) (lap : hist.length ≤ first + init.length) :
    (Recovery.new (BlockRing.new c.log.storage) c.key first).Yields C ((hist.drop first).map Prod.snd)
      { log := BlockRing.new c.log.storage
        key := c.key
        start := first
        stop := hist.length
        macs := ((sealChain C c.key default hist).map (·.footer.thisMac)).drop first } := by
  have := h.yields_from (r := Recovery.new (BlockRing.new c.log.storage) c.key first) ideal
    foreign rfl rfl lt.le lap (by simp [Recovery.new]) (.inr lt)
  simpa [Recovery.new] using this

end Invariant

end OmegaOsx.MlsDisk
