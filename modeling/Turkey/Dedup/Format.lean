import Mathlib.Data.List.Lattice
import Turkey.Dedup.Archive
import Turkey.Dedup.Fragment

/-! The archive as a file: what the encoder makes of its records (`write_header`, `write_file`,
    `sub_Compress`) and what `Decode` reads out of it (`decoder.c`, `util.c`). Numbers are little endian.

    The lengths are `u_long` in the file and come back through `xread`, `xwrite`, `read_chunk` and
    `uncompress_chunk` as `int`. zlib and SHA-1 are parameters; bzip2 is not compiled in. `none` is an
    exit of the program. -/

namespace Turkey.Format
open Turkey.Rabin
open Turkey.Archive (Record)

/-- `SHA1_LEN` -/
def sha1Len : ℕ := 20

/-- A SHA-1 sum. -/
abbrev Digest := { sha1 : Bytes // sha1.length = sha1Len }

/-- zlib: `uncompress` with room for `n` bytes undoes `compress` when there is enough room, and returns
    `Z_BUF_ERROR` otherwise; the compressed data has a header. -/
structure Zlib where
  compress : Bytes → Bytes
  uncompress : ℕ → Bytes → Option Bytes
  uncompress_compress : ∀ n x, uncompress n (compress x) = if x.length ≤ n then some x else none
  compress_ne_nil : ∀ x, compress x ≠ []

/-- `conf->compress_type` -/
inductive CompressType where
  | gzip
  | bzip2
  | none
  deriving DecidableEq

namespace CompressType

def code : CompressType → UInt8
  | gzip => 0
  | bzip2 => 1
  | none => 2

/-- The type a byte of the header stands for. -/
def ofCode (b : UInt8) : Option CompressType :=
  if b = 0 then some gzip else if b = 1 then some bzip2 else if b = 2 then some none else Option.none

theorem ofCode_code (t : CompressType) : ofCode t.code = some t := by cases t <;> rfl

end CompressType

/-- `CHECKBIT` -/
def checkbit : ℕ := 123456

/-- `TYPE_FINGERPRINT` -/
def typeFingerprint : UInt8 := 0

/-- `TYPE_COMPRESS` -/
def typeCompress : UInt8 := 1

/-- `UNCOMPRESS_BOUND` -/
def uncompressBound : ℕ := 10000000

/-! ### Little-endian numbers -/

/-- The low `k` bytes of a number. -/
def toLe : ℕ → ℕ → Bytes
  | 0, _ => []
  | k + 1, n => UInt8.ofNat n :: toLe k (n / 256)

def ofLe (bytes : Bytes) : ℕ := bytes.foldr (fun b n => b.toNat + 256 * n) 0

@[simp] theorem toLe_length : ∀ k n, (toLe k n).length = k
  | 0, _ => rfl
  | k + 1, n => by rw [toLe, List.length_cons, toLe_length]

theorem ofLe_toLe : ∀ k n, ofLe (toLe k n) = n % 256 ^ k
  | 0, n => by rw [pow_zero, Nat.mod_one]; rfl
  | k + 1, n => by
      have ih := ofLe_toLe k (n / 256)
      unfold ofLe at ih
      rw [ofLe, toLe, List.foldr_cons, ih, pow_succ', Nat.mod_mul, UInt8.toNat_ofNat']

/-! ### Writing -/

/-- The data that `sub_Compress` puts into a chunk. -/
def packed (z : Zlib) (type : CompressType) (data : Bytes) : Option Bytes :=
  match type with
  | .none => some data
  | .gzip =>
    if (z.compress data).length ≤ data.length + (data.length >>> 9) + 12 then some (z.compress data)
    else none
  | .bzip2 => none

def writeHeader (type : CompressType) : Bytes := toLe 4 checkbit ++ [type.code]

/-- It exits when the length is negative as the result of `xwrite`. -/
def writeFile (type : UInt8) (content : Bytes) : Option Bytes :=
  if int32 content.length < 0 then none else some (type :: (toLe 8 content.length ++ content))

/-- The bytes of a record. -/
def writeRecord : Record Digest (Option Bytes) → Option Bytes
  | .compress data => data.bind (writeFile typeCompress)
  | .fingerprint sha1 => writeFile typeFingerprint sha1.val

/-- The output file. -/
def archiveFile (type : CompressType) (records : List (Record Digest (Option Bytes))) : Option Bytes :=
  (records.mapM writeRecord).map fun parts => writeHeader type ++ parts.flatten

/-! ### Reading -/

/-- The result, the bytes read and the rest of the file. At the end of the file the result is 0, also
    when some bytes have been read. -/
def xread (len : ℕ) (file : Bytes) : ℤ × Bytes × Bytes :=
  if file.length < len then (0, [], []) else (int32 len, file.take len, file.drop len)

/-- What `read_chunk` does: it exits, it is at the end of the file, or it returns `r` with a record in
    the chunk. -/
inductive Read where
  | exit
  | eof
  | chunk (r : ℤ) (record : Record Bytes Bytes) (file : Bytes)

/-- The `switch` of `read_chunk`. -/
def readContent (type : Bytes) (len : ℕ) (file : Bytes) : Read :=
  if type = [typeFingerprint] then
    if len ≠ sha1Len then .exit
    else
      let (r, sha1, file) := xread sha1Len file
      if r ≤ 0 then .exit else .chunk (int32 len) (.fingerprint sha1) file
  else if type = [typeCompress] then
    if len = 0 then .exit
    else
      let (r, data, file) := xread len file
      if r ≤ 0 then .exit else .chunk (int32 len) (.compress data) file
  else .exit

def readChunk (file : Bytes) : Read :=
  let (r, type, file) := xread 1 file
  if r < 0 then .exit
  else if r = 0 then .eof
  else
    let (r, len, file) := xread 8 file
    if r ≤ 0 then .exit else readContent type (ofLe len) file

/-- The uncompressed data; `type` is what the header says. -/
def uncompressChunk (z : Zlib) (type : Option CompressType) (data : Bytes) : Option Bytes :=
  match type with
  | some .none => some data
  | some .gzip => z.uncompress uncompressBound data
  | _ => none

section Decode
variable (sha1 : Bytes → Digest) (z : Zlib) (type : Option CompressType)

/-- The data of a record and the hash table `cache` afterwards. -/
def findEntry (cache : Bytes → Option Bytes) : Record Bytes Bytes → Option (Bytes × (Bytes → Option Bytes))
  | .compress data =>
    (uncompressChunk z type data).bind fun data =>
      if int32 data.length ≤ 0 then none
      else some (data, Function.update cache (sha1 data).val (some data))
  | .fingerprint key => (cache key).map fun data => (data, cache)

/-- One iteration of the main loop of `Decode`: it exits, it leaves the loop, or it writes the data of a
    chunk. -/
inductive Decoded where
  | exit
  | stop
  | wrote (data : Bytes) (cache : Bytes → Option Bytes) (file : Bytes)

def decodeChunk (cache : Bytes → Option Bytes) (file : Bytes) : Decoded :=
  match readChunk file with
  | .exit => .exit
  | .eof => .stop
  | .chunk r record file =>
    if r < 0 then .exit
    else if r = 0 then .stop
    else
      match findEntry sha1 z type cache record with
      | none => .exit
      | some (data, cache) =>
        if toSize (int32 data.length) < data.length then .exit else .wrote data cache file

theorem xread_length (len : ℕ) (file : Bytes) : (xread len file).2.2.length ≤ file.length := by
  unfold xread
  split
  · exact Nat.zero_le _
  · rw [List.length_drop]
    omega

theorem readContent_length {type file rest : Bytes} {len : ℕ} {r : ℤ} {record : Record Bytes Bytes}
    (h : readContent type len file = .chunk r record rest) : rest.length ≤ file.length := by
  unfold readContent at h
  dsimp only at h
  split_ifs at h
  · obtain ⟨-, -, rfl⟩ := Read.chunk.inj h
    exact xread_length _ _
  · obtain ⟨-, -, rfl⟩ := Read.chunk.inj h
    exact xread_length _ _

/-- `read_chunk` reads at least the type of the chunk. -/
theorem readChunk_length {file rest : Bytes} {r : ℤ} {record : Record Bytes Bytes}
    (h : readChunk file = .chunk r record rest) : rest.length < file.length := by
  cases file with
  | nil => cases h
  | cons b file =>
    have hfirst : xread 1 (b :: file) = (1, [b], file) := rfl
    unfold readChunk at h
    rw [hfirst] at h
    dsimp only at h
    split_ifs at h
    exact Nat.lt_succ_of_le ((readContent_length h).trans (xread_length 8 file))

theorem decodeChunk_length {cache cache' : Bytes → Option Bytes} {file data rest : Bytes}
    (h : decodeChunk sha1 z type cache file = .wrote data cache' rest) : rest.length < file.length := by
  unfold decodeChunk at h
  split at h
  · cases h
  · cases h
  · rename_i hread
    split_ifs at h
    split at h
    · cases h
    · split_ifs at h
      cases h
      exact readChunk_length hread

/-- What `Decode` writes. -/
def decodeLoop (cache : Bytes → Option Bytes) (file : Bytes) : Option Bytes :=
  match _h : decodeChunk sha1 z type cache file with
  | .exit => none
  | .stop => some []
  | .wrote data cache rest => (decodeLoop cache rest).map fun out => data ++ out
termination_by file.length
decreasing_by exact decodeChunk_length sha1 z type _h

end Decode

/-- The output of `Decode`, with `read_header` at the start. -/
def decode (sha1 : Bytes → Digest) (z : Zlib) (file : Bytes) : Option Bytes :=
  let (_, check, file) := xread 4 file
  if ofLe check ≠ checkbit then none
  else
    let (_, type, file) := xread 1 file
    decodeLoop sha1 z (type.head?.bind CompressType.ofCode) (fun _ => none) file

/-! ### Reading what has been written -/

theorem xread_append {len : ℕ} {x rest : Bytes} (h : x.length = len) :
    xread len (x ++ rest) = (int32 len, x, rest) := by
  subst h
  unfold xread
  rw [if_neg (by rw [List.length_append]; omega), List.take_left' rfl, List.drop_left' rfl]

theorem xread_toLe (k n : ℕ) (rest : Bytes) : xread k (toLe k n ++ rest) = (int32 k, toLe k n, rest) :=
  xread_append (toLe_length k n)

theorem writeFile_eq_some {type : UInt8} {content file : Bytes} (h : writeFile type content = some file) :
    0 ≤ int32 content.length ∧ file = type :: (toLe 8 content.length ++ content) := by
  unfold writeFile at h
  split at h
  · cases h
  · rename_i hint
    exact ⟨not_lt.mp hint, (Option.some.inj h).symm⟩

theorem readChunk_cons {type : UInt8} {n : ℕ} {content rest : Bytes} (hn : n < 2 ^ 64) :
    readChunk (type :: (toLe 8 n ++ content) ++ rest) = readContent [type] n (content ++ rest) := by
  have hfirst : xread 1 (type :: (toLe 8 n ++ content) ++ rest) =
      (1, [type], toLe 8 n ++ (content ++ rest)) := by
    rw [List.cons_append, List.append_assoc]
    rfl
  have h8 : int32 (8 : ℕ) = 8 := int32_of_lt (by omega)
  have hle : ofLe (toLe 8 n) = n := by rw [ofLe_toLe, Nat.mod_eq_of_lt (by omega)]
  unfold readChunk
  rw [hfirst]
  dsimp only
  rw [if_neg (by decide), if_neg (by decide), xread_toLe, h8]
  dsimp only
  rw [if_neg (by decide), hle]

/-- A record with data; one whose length is no positive `int` is rejected. -/
theorem readChunk_compress {data rest : Bytes} (hne : data ≠ []) (hlen : data.length < 2 ^ 64) :
    readChunk (typeCompress :: (toLe 8 data.length ++ data) ++ rest) =
      if int32 data.length ≤ 0 then .exit else .chunk (int32 data.length) (.compress data) rest := by
  have hpos : data.length ≠ 0 := fun h0 => hne (List.length_eq_zero_iff.mp h0)
  rw [readChunk_cons hlen, readContent, if_neg (by decide), if_pos rfl, if_neg hpos, xread_append rfl]

/-- A record with a SHA-1 sum. -/
theorem readChunk_fingerprint (key : Digest) (rest : Bytes) :
    readChunk (typeFingerprint :: (toLe 8 key.val.length ++ key.val) ++ rest) =
      .chunk sha1Len (.fingerprint key.val) rest := by
  have h20 : int32 sha1Len = sha1Len := int32_of_lt (by rw [sha1Len]; omega)
  have hlen : key.val.length < 2 ^ 64 := by
    rw [key.property, sha1Len]
    omega
  rw [readChunk_cons hlen, readContent, if_pos rfl, if_neg (not_not.mpr key.property),
    xread_append key.property, key.property, h20]
  rfl

/-- The chunk can be uncompressed again. -/
def Fits (type : CompressType) (x : Bytes) : Prop := type = .gzip → x.length ≤ uncompressBound

instance (type : CompressType) : DecidablePred (Fits type) := fun _ => inferInstanceAs (Decidable (_ → _))

section Steps
open Turkey.Fragment (Sized ssizeMax)
variable {sha1 : Bytes → Digest} {z : Zlib} {type : CompressType} {cache : Bytes → Option Bytes}

/-- The result of `xwrite` is not taken for an error. -/
theorem Sized.not_short {x : Bytes} (h : Sized x) : ¬toSize (int32 x.length) < x.length := by
  have hsize := h.size
  rw [ssizeMax] at hsize
  rcases h.int with hint | hint
  · have := toSize_of_nonneg (z := (x.length : ℤ)) (by omega) (by omega)
    rw [int32_of_lt hint]
    omega
  · have := le_toSize_of_neg hint (le_int32 _)
    omega

theorem decodeChunk_fingerprint {x rest file : Bytes} (hx : Sized x) (hcache : cache (sha1 x).val = some x)
    (hfile : writeFile typeFingerprint (sha1 x).val = some file) :
    decodeChunk sha1 z (some type) cache (file ++ rest) = .wrote x cache rest := by
  obtain ⟨-, rfl⟩ := writeFile_eq_some hfile
  unfold decodeChunk
  rw [readChunk_fingerprint]
  dsimp only
  rw [if_neg (by decide), if_neg (by decide), findEntry, hcache]
  exact if_neg (Sized.not_short hx)

/-- What `sub_Compress` leaves can be read back. -/
theorem packed_spec {x data : Bytes} (hx : Sized x) (h : packed z type x = some data) :
    data ≠ [] ∧ data.length < 2 ^ 64 ∧
      uncompressChunk z (some type) data = (if Fits type x then some x else none) ∧
      (0 ≤ int32 data.length → Fits type x → 0 < int32 data.length ∧ 0 < int32 x.length) := by
  have hsize := hx.size
  have hpos := List.length_pos_iff.mpr hx.nonempty
  rw [ssizeMax] at hsize
  cases type with
  | none =>
    cases h
    have hfits : Fits .none x := fun hgzip => by cases hgzip
    refine ⟨hx.nonempty, by omega, (if_pos hfits).symm, fun hint _ => ?_⟩
    rcases hx.int with hlt | hneg
    · rw [int32_of_lt hlt]
      omega
    · omega
  | gzip =>
    simp only [packed] at h
    split at h
    · rename_i hroom
      cases h
      rw [Nat.shiftRight_eq_div_pow] at hroom
      have hdata := List.length_pos_iff.mpr (z.compress_ne_nil x)
      refine ⟨z.compress_ne_nil x, by omega, ?_, fun hint hfits => ?_⟩
      · simp only [uncompressChunk, z.uncompress_compress, Fits, forall_const]
      · have hbound := hfits rfl
        rw [uncompressBound] at hbound
        rw [int32_of_lt (by omega), int32_of_lt (by omega)]
        omega
    · cases h
  | bzip2 => cases h

theorem decodeChunk_compress {x data rest file : Bytes} (hx : Sized x) (hdata : packed z type x = some data)
    (hfile : writeFile typeCompress data = some file) :
    decodeChunk sha1 z (some type) cache (file ++ rest) =
      if Fits type x then .wrote x (Function.update cache (sha1 x).val (some x)) rest else .exit := by
  obtain ⟨hint, rfl⟩ := writeFile_eq_some hfile
  obtain ⟨hne, hlen, huncompress, hfits⟩ := packed_spec hx hdata
  unfold decodeChunk
  rw [readChunk_compress hne hlen]
  by_cases hx' : Fits type x
  · obtain ⟨hr, hn⟩ := hfits hint hx'
    rw [if_neg (not_le.mpr hr)]
    dsimp only
    rw [if_neg (not_lt.mpr hr.le), if_neg hr.ne', findEntry, huncompress, if_pos hx', if_pos hx',
      Option.bind_some, if_neg (not_le.mpr hn)]
    exact if_neg (Sized.not_short hx)
  · -- either the length is rejected or there is not enough room
    rw [if_neg hx'] at huncompress ⊢
    by_cases hr : int32 data.length ≤ 0
    · rw [if_pos hr]
    · rw [if_neg hr]
      dsimp only
      rw [if_neg (by omega), if_neg (by omega), findEntry, huncompress]
      rfl

end Steps

end Turkey.Format
