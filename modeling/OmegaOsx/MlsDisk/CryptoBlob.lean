import OmegaOsx.MlsDisk.Basic

/-!
# The crypto blob

A `CryptoBlob` is one encrypted byte string in a block set: a header with a version, a MAC and a
length, followed by the ciphertext. The bytes of the block set are read as that header and the body
behind it; the header lies in the first block.
-/

namespace OmegaOsx.MlsDisk

open Option

variable {Key Iv Mac : Type}

structure BlobHeader (Mac : Type) where
  version : Nat
  mac : Mac
  payloadLen : Nat
  deriving DecidableEq

/-- A block set of `nblocks` blocks, read as a header and a body. -/
structure BlobArea (Mac : Type) where
  nblocks : Nat
  header : BlobHeader Mac
  body : Bytes
  deriving DecidableEq

/-- `HEADER_NBYTES`: a version, a MAC and a length, of 8, 16 and 8 bytes. -/
@[irreducible] def headerNbytes : Nat := 32

namespace BlobArea

def capacity (a : BlobArea Mac) : Nat := a.nblocks * blockSize - headerNbytes

/-- Overwrites the first blocks with a header, `cipher` and zeros up to the block boundary. -/
def write (a : BlobArea Mac) (header : BlobHeader Mac) (cipher : Bytes) : BlobArea Mac :=
  let nblocks := (headerNbytes + cipher.length + blockSize - 1) / blockSize
  let padded := cipher ++ List.replicate (nblocks * blockSize - headerNbytes - cipher.length) 0
  { a with header := header, body := padded ++ a.body.drop padded.length }

/-- A write that was cut short: the first block, which holds the header, is the old or the new one,
and the rest may be anything. -/
structure Torn (old new torn : BlobArea Mac) : Prop where
  nblocks : torn.nblocks = old.nblocks
  header : torn.header = old.header ∨ torn.header = new.header

end BlobArea

structure CryptoBlob (Key Mac : Type) where
  area : BlobArea Mac
  key : Key
  header : Option (BlobHeader Mac)
  deriving DecidableEq

namespace CryptoBlob

variable (C : Crypto Key Iv Mac)

/-- `CryptoBlob::open`. -/
def openArea (key : Key) (area : BlobArea Mac) : CryptoBlob Key Mac := ⟨area, key, none⟩

variable (b : CryptoBlob Key Mac)

def versionId : Option Nat := b.header.map (·.version)

def currentMac : Option Mac := b.header.map (·.mac)

/-- Encrypts `buf` as version `version` and writes it out. -/
def store (version : Nat) (buf : Bytes) : CryptoBlob Key Mac :=
  let sealed := C.encrypt buf b.key (C.versionIv version) none
  let header := ⟨version, sealed.2, buf.length⟩
  { b with area := b.area.write header sealed.1, header := some header }

def create (area : BlobArea Mac) (key : Key) (initData : Bytes) : Res (CryptoBlob Key Mac) :=
  if area.capacity < initData.length then
    fail .outOfDisk "init_data is too large"
  else
    .ok (store C ⟨area, key, none⟩ 0 initData)

def write (b : CryptoBlob Key Mac) (buf : Bytes) : Res (CryptoBlob Key Mac) :=
  if b.area.capacity < buf.length then
    fail .outOfDisk "write data is too large"
  else
    match b.versionId with
    | none => fail .notFound "write with no valid version ID"
    | some version => .ok (b.store C (version + 1) buf)

/-- `read` into a buffer of `bufLen` bytes: the payload, and the blob with its header cached. -/
def read (bufLen : Nat) : Res (Bytes × CryptoBlob Key Mac) :=
  let header := b.header.getD b.area.header
  if b.area.capacity < header.payloadLen then
    fail .outOfDisk "payload_len is greater than the capacity"
  else if bufLen < header.payloadLen then
    fail .outOfDisk "read_buf is too small"
  else
    match C.decrypt (b.area.body.take header.payloadLen) b.key (C.versionIv header.version) none
      header.mac with
    | none => fail .decryptFailed "aes-128-gcm decryption failed"
    | some payload => .ok (payload, { b with header := some header })

/-- `recover_from`: re-encrypts the payload of `other`, keeping its version. -/
def recoverFrom (b other : CryptoBlob Key Mac) : Res (CryptoBlob Key Mac) :=
  if b.area.capacity ≠ other.area.capacity then
    fail .invalidArgs "capacity not aligned, recover failed"
  else if b.header.isSome then
    fail .invalidArgs "no need to recover"
  else do
    let (payload, other) ← other.read C (b.area.nblocks * blockSize)
    match other.versionId with
    | none => panicWith "called `Option::unwrap()` on a `None` value"
    | some version => .ok (b.store C version payload)

/-! ## What a blob holds -/

/-- The area holds `payload`, encrypted under `key` as version `version`. -/
structure Holds (key : Key) (version : Nat) (payload : Bytes) (area : BlobArea Mac) : Prop where
  header : area.header = ⟨version, (C.encrypt payload key (C.versionIv version) none).2, payload.length⟩
  body : area.body.take payload.length = (C.encrypt payload key (C.versionIv version) none).1
  fits : payload.length ≤ area.capacity

variable {C} {b b' : CryptoBlob Key Mac} {area : BlobArea Mac} {key : Key} {payload : Bytes}
  {version : Nat}

theorem capacity_le (area : BlobArea Mac) : area.capacity ≤ area.nblocks * blockSize := Nat.sub_le _ _

section Ideal

variable [Inhabited Mac] (ideal : C.Ideal)
include ideal

theorem store_holds (fits : payload.length ≤ b.area.capacity) :
    Holds C b.key version payload (b.store C version payload).area where
  header := rfl
  body := by
    have len := ideal.length_encrypt payload b.key (C.versionIv version) none
    simp only [store, BlobArea.write, List.append_assoc]
    rw [← len, List.take_left]
  fits := fits

theorem create_holds (ok : create C area key payload = .ok b) :
    Holds C key 0 payload b.area ∧ b.key = key ∧ b.header = some b.area.header ∧
    b.area.nblocks = area.nblocks := by
  obtain ⟨fits, ok⟩ := guard_ok.mp ok
  cases ok
  exact ⟨store_holds (b := ⟨area, key, none⟩) ideal (Nat.le_of_not_lt fits), rfl, rfl, rfl⟩

/-- A write stores the payload as the next version. -/
theorem write_holds (ok : b.write C payload = .ok b') (cached : b.header = some b.area.header) :
    Holds C b.key (b.area.header.version + 1) payload b'.area ∧ b'.key = b.key ∧
      b'.header = some b'.area.header ∧ b'.area.nblocks = b.area.nblocks := by
  obtain ⟨fits, ok⟩ := guard_ok.mp ok
  simp only [versionId, cached, map_some, Except.ok.injEq] at ok
  subst ok
  exact ⟨store_holds ideal (Nat.le_of_not_lt fits), rfl, rfl, rfl⟩

theorem read_of_holds (h : Holds C key version payload area) {bufLen : Nat} (room : area.capacity ≤ bufLen) :
    (openArea key area).read C bufLen = .ok (payload, ⟨area, key, some area.header⟩) := by
  have fits := h.fits
  simp only [read, openArea, getD_none, h.header, h.body]
  rw [if_neg (not_lt.mpr fits), if_neg (not_lt.mpr (le_trans fits room)), ideal.decrypt_encrypt]

theorem recoverFrom_holds (key : Key) {other : CryptoBlob Key Mac} (h : Holds C other.key version payload other.area)
    (cached : other.header = some other.area.header) (size : area.nblocks = other.area.nblocks) :
    ∃ b, (openArea key area).recoverFrom C other = .ok b ∧ Holds C key version payload b.area ∧
      b.key = key ∧ b.header = some b.area.header ∧ b.area.nblocks = area.nblocks := by
  have capacity : area.capacity = other.area.capacity := by simp [BlobArea.capacity, size]
  have fits := h.fits
  have room := capacity_le other.area
  have fetched : other.read C (area.nblocks * blockSize) = .ok (payload, other) := by
    simp only [read, cached, getD_some, h.header, h.body]
    rw [if_neg (not_lt.mpr fits), if_neg (by rw [size]; omega), ideal.decrypt_encrypt]
    rw [← h.header, ← cached]
  refine ⟨(openArea key area).store C version payload, ?_,
    store_holds (b := openArea key area) ideal (capacity ▸ fits), rfl, rfl, rfl⟩
  simp only [recoverFrom, openArea, capacity, ne_eq, isSome_none]
  rw [fetched]
  simp [bind, Except.bind, versionId, cached, h.header]

/-- The MAC in the header pins down the payload, and with it the ciphertext. -/
theorem holds_of_decrypt {p : Bytes} (header : area.header =
      ⟨version, (C.encrypt payload key (C.versionIv version) none).2, payload.length⟩)
    (fits : area.header.payloadLen ≤ area.capacity)
    (decrypted : C.decrypt (area.body.take area.header.payloadLen) key
      (C.versionIv area.header.version) none area.header.mac = some p) :
    Holds C key version payload area ∧ p = payload := by
  have enc := ideal.authentic _ _ _ _ _ _ decrypted
  simp only [header] at enc fits
  have macs : (C.encrypt p key (C.versionIv version) none).2 =
      (C.encrypt payload key (C.versionIv version) none).2 := by rw [enc]
  obtain ⟨rfl, -⟩ := ideal.mac_inj _ _ _ _ _ _ _ _ macs
  exact ⟨⟨header, by rw [enc], fits⟩, rfl⟩

/-- A torn blob reads as what it held before the write, as what was being written, or not at
all. -/
theorem read_torn {old new : BlobArea Mac} {vOld vNew : Nat} {pOld pNew : Bytes}
    (hold : Holds C key vOld pOld old) (hnew : Holds C key vNew pNew new)
    (torn : BlobArea.Torn old new area) {bufLen : Nat} {res : Bytes × CryptoBlob Key Mac}
    (ok : (openArea key area).read C bufLen = .ok res) :
    (Holds C key vOld pOld area ∧ res.1 = pOld) ∨ (Holds C key vNew pNew area ∧ res.1 = pNew) := by
  obtain ⟨fits, ok⟩ := guard_ok.mp ok
  obtain ⟨-, ok⟩ := guard_ok.mp ok
  simp only [openArea, getD_none] at fits ok
  cases decrypted : C.decrypt (area.body.take area.header.payloadLen) key
      (C.versionIv area.header.version) none area.header.mac with
  | none => simp [decrypted, fail] at ok
  | some payload =>
    simp only [decrypted, Except.ok.injEq] at ok
    subst ok
    rcases torn.header with same | same
    · exact .inl (holds_of_decrypt ideal (same.trans hold.header) (Nat.le_of_not_lt fits) decrypted)
    · exact .inr (holds_of_decrypt ideal (same.trans hnew.header) (Nat.le_of_not_lt fits) decrypted)

end Ideal

end CryptoBlob

end OmegaOsx.MlsDisk
