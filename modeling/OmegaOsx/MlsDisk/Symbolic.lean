import OmegaOsx.MlsDisk.EditJournal

/-!
# A symbolic cipher

The assumptions on the cipher and on the serialiser can be met: here the MAC of a message is the
message itself, with its key, IV and associated data, and a ciphertext is its plaintext. Byte
strings are made self-delimiting by `quote`.
-/

namespace OmegaOsx.MlsDisk.Symbolic

open List

/-- Marks every byte, and the end. -/
def quote : Bytes → Bytes
  | [] => [0]
  | b :: bs => 1 :: b :: quote bs

/-- Reads a quoted byte string off the front. -/
def unquote : Bytes → Option (Bytes × Bytes)
  | [] => none
  | [m] => if m = 0 then some ([], []) else none
  | m :: b :: rest =>
    if m = 0 then some ([], b :: rest)
    else (unquote rest).map fun (bs, left) => (b :: bs, left)

theorem unquote_quote (bs rest : Bytes) : unquote (quote bs ++ rest) = some (bs, rest) := by
  induction bs with
  | nil => cases rest <;> simp [quote, unquote]
  | cons b bs ih => simp [quote, unquote, ih]

theorem quote_append_inj {as bs rest rest' : Bytes} (h : quote as ++ rest = quote bs ++ rest') :
    as = bs ∧ rest = rest' := by
  have := congrArg unquote h
  simpa [unquote_quote] using this

/-- The MAC of a message: the message and everything it depends on. -/
def tag (plain : Bytes) (key : UInt8) (iv : Nat) (aad : Option Bytes) : Bytes :=
  quote plain ++ (quote (List.replicate iv 0) ++ key :: (aad.map (0 :: ·)).getD [])

theorem tag_inj {p p' : Bytes} {k k' : UInt8} {iv iv' : Nat} {aad aad' : Option Bytes}
    (h : tag p k iv aad = tag p' k' iv' aad') : p = p' ∧ k = k' ∧ iv = iv' ∧ aad = aad' := by
  obtain ⟨plain, h⟩ := quote_append_inj h
  obtain ⟨ivs, h⟩ := quote_append_inj h
  have iv_eq := congrArg length ivs
  obtain ⟨key, h⟩ := cons.inj h
  refine ⟨plain, key, by simpa using iv_eq, ?_⟩
  cases aad <;> cases aad' <;> simp_all

theorem tag_ne_nil (p : Bytes) (k : UInt8) (iv : Nat) (aad : Option Bytes) : tag p k iv aad ≠ [] := by
  cases p <;> simp [tag]

def cipher : Crypto UInt8 Nat Bytes where
  encrypt plain key iv aad := (plain, tag plain key iv aad)
  decrypt c key iv aad mac := if mac = tag c key iv aad then some c else none
  versionIv := id
  randomIv := id

theorem cipher_ideal : cipher.Ideal where
  decrypt_encrypt := by simp [cipher]
  authentic := by simp [cipher, eq_comm]
  length_encrypt := by simp [cipher]
  mac_inj _ _ _ _ _ _ _ _ h := tag_inj h
  mac_ne_default := tag_ne_nil
  randomIv_inj := Function.injective_id

/-! ## A journal of bytes -/

/-- The state is the list of all edits applied to it. -/
instance : Edit UInt8 Bytes where
  applyTo e s := s ++ [e]

def ser : Postcard UInt8 Bytes Bytes where
  toSlice
    | .version mac => 0 :: quote mac
    | .edit group => 1 :: quote group
  takeFromBytes
    | [] => none
    | t :: rest => (unquote rest).map fun (bs, left) =>
      (if t = 0 then .version bs else .edit bs, left)
  snapshotToSlice s := quote s.state ++ quote (List.replicate s.recoverFrom 0)
  snapshotFromBytes bs := do
    let (state, rest) ← unquote bs
    let (ticks, _) ← unquote rest
    some ⟨state, ticks.length⟩

theorem ser_roundTrips : ser.RoundTrips where
  take_toSlice r rest := by cases r <;> simp [ser, unquote_quote]
  take_nil := rfl
  snapshot s := by
    have inner := unquote_quote (replicate s.recoverFrom 0) []
    rw [append_nil] at inner
    simp [ser, unquote_quote, inner]

def blankBlock : ChainBlock Nat Bytes := ⟨[], ⟨0, [], [], 0⟩⟩

/-- A disk of `n` blocks that has never been written. -/
def blankDisk (n : Nat) : RawDisk Nat Bytes where
  nblocks := n
  carve b := ⟨fun _ => ⟨b, ⟨0, [], 0⟩, []⟩, List.replicate (n - 2 * b) blankBlock⟩
  areas _ _ := rfl
  journal _ := List.length_replicate

theorem blank_foreign {n b : Nat} (key : UInt8) :
    ∀ block ∈ ((blankDisk n).carve b).journalArea, block.Foreign cipher key := by
  intro block mem
  rw [eq_of_mem_replicate mem]
  simp [ChainBlock.Foreign, cipher, blankBlock, (tag_ne_nil _ _ _ _).symm]

end OmegaOsx.MlsDisk.Symbolic
