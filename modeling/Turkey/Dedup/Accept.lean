import Turkey.Dedup.Format

/-! Which files `Decode` accepts. Here `read` may return fewer bytes than it is asked for, and the
    variables have whatever is on the stack before something is read into them: `xread` returns 0 at the
    end of the file also when it has read some of the bytes, and `read_header` does not look for that. -/

namespace Turkey.Accept
open Turkey.Rabin
open Turkey.Archive (Record)
open Turkey.Format (Zlib Digest CompressType sha1Len checkbit typeFingerprint typeCompress uncompressBound
  toLe ofLe findEntry uncompressChunk)

/-- zlib, with the data that a stream stands for: `uncompress` returns it when there is room for it. -/
structure Inflater extends Zlib where
  inflate : Bytes → Option Bytes
  uncompress_eq : ∀ n y, uncompress n y = (inflate y).filter fun x => x.length ≤ n

/-- What is in the variables before they are read into. -/
structure Junk where
  checkbit : Bytes
  checkbit_length : checkbit.length = 4
  compressType : UInt8
  buffer : ℕ → UInt8

/-- A buffer of `n` bytes. -/
def Junk.fresh (junk : Junk) (n : ℕ) : Bytes := (List.range n).map junk.buffer

/-! ### Reading -/

section Read
variable (avail : ℕ → ℕ)

/-- What `read` returns, and the rest of the file: at least one byte unless the file is at its end. No
    place of the file is read twice, so that a function of the bytes that are left gives every sequence of
    short reads. -/
def read (n : ℕ) (file : Bytes) : Bytes × Bytes := file.splitAt (min n (avail file.length + 1))

/-- The loop of `xread`; `got` are the bytes received, `buf` is the rest of the buffer. The result, the
    buffer afterwards and the rest of the file. -/
def xreadLoop (got buf file : Bytes) : ℤ × Bytes × Bytes :=
  if buf = [] then (int32 got.length, got, file)
  else
    match _h : read avail buf.length file with
    | ([], file) => (0, got ++ buf, file)
    | (b :: x, file) => xreadLoop (got ++ b :: x) (buf.drop (b :: x).length) file
termination_by buf.length
decreasing_by
  rw [List.length_drop, List.length_cons]
  have := List.length_pos_iff.mpr ‹¬buf = []›
  omega

def xread (buf file : Bytes) : ℤ × Bytes × Bytes := xreadLoop avail [] buf file

variable (junk : Junk)

/-- The `switch` of `read_chunk`. -/
def readContent (type : Bytes) (len : ℕ) (file : Bytes) : Format.Read :=
  if type = [typeFingerprint] then
    if len ≠ sha1Len then .exit
    else
      let (r, sha1, file) := xread avail (junk.fresh sha1Len) file
      if r ≤ 0 then .exit else .chunk (int32 len) (.fingerprint sha1) file
  else if type = [typeCompress] then
    if len = 0 then .exit
    else
      let (r, data, file) := xread avail (junk.fresh len) file
      if r ≤ 0 then .exit else .chunk (int32 len) (.compress data) file
  else .exit

def readChunk (file : Bytes) : Format.Read :=
  let (r, type, file) := xread avail (junk.fresh 1) file
  if r < 0 then .exit
  else if r = 0 then .eof
  else
    let (r, len, file) := xread avail (junk.fresh 8) file
    if r ≤ 0 then .exit else readContent avail junk type (ofLe len) file

/-- The compression type and the rest of the file; a result of 0 is not an error. -/
def readHeader (file : Bytes) : Option (UInt8 × Bytes) :=
  let (r, check, file) := xread avail junk.checkbit file
  if r < 0 then none
  else if ofLe check ≠ checkbit then none
  else
    let (r, type, file) := xread avail [junk.compressType] file
    if r < 0 then none else some (type.headD 0, file)

end Read

/-- `read` takes some bytes from the front. -/
theorem read_spec {avail : ℕ → ℕ} {n : ℕ} {file x rest : Bytes} (hn : 0 < n)
    (h : read avail n file = (x, rest)) : file = x ++ rest ∧ x.length ≤ n ∧ (x = [] → file = []) := by
  rw [read, List.splitAt_eq] at h
  obtain ⟨rfl, rfl⟩ := Prod.mk.inj h
  refine ⟨(List.take_append_drop _ _).symm, ?_, fun hx => ?_⟩
  · rw [List.length_take]
    omega
  · rcases List.take_eq_nil_iff.mp hx with h0 | hnil
    · omega
    · exact hnil

/-- The number of bytes that `read` returns does not matter. -/
theorem xreadLoop_eq (avail : ℕ → ℕ) (got buf file : Bytes) : xreadLoop avail got buf file =
    if file.length < buf.length then (0, got ++ (file ++ buf.drop file.length), [])
    else (int32 (got.length + buf.length : ℕ), got ++ file.take buf.length, file.drop buf.length) := by
  fun_induction xreadLoop avail got buf file with
  | case1 got file => simp
  | case2 got buf file hbuf rest hread =>
    have hpos := List.length_pos_iff.mpr hbuf
    obtain ⟨hfile, -, hnil⟩ := read_spec hpos hread
    have hempty := hnil rfl
    subst hempty
    obtain rfl : rest = [] := hfile.symm
    simp [hpos]
  | case3 got buf file hbuf b x rest hread ih =>
    obtain ⟨rfl, hle, -⟩ := read_spec (List.length_pos_iff.mpr hbuf) hread
    generalize b :: x = y at *
    rw [ih, List.length_drop, List.length_append, List.length_append]
    by_cases hshort : rest.length < buf.length - y.length
    · rw [if_pos hshort, if_pos (by omega), List.drop_drop, List.append_assoc, List.append_assoc]
    · rw [if_neg hshort, if_neg (by omega), List.take_append, List.drop_append,
        List.take_of_length_le hle, List.drop_of_length_le hle, List.append_assoc, List.nil_append,
        show got.length + y.length + (buf.length - y.length) = got.length + buf.length by omega]

theorem xread_eq (avail : ℕ → ℕ) (buf file : Bytes) : xread avail buf file =
    if file.length < buf.length then (0, file ++ buf.drop file.length, [])
    else (int32 buf.length, file.take buf.length, file.drop buf.length) := by
  rw [xread, xreadLoop_eq, List.nil_append, List.nil_append, List.length_nil, Nat.zero_add]

@[simp] theorem fresh_length (junk : Junk) (n : ℕ) : (junk.fresh n).length = n := by
  rw [Junk.fresh, List.length_map, List.length_range]

/-- Only at the end of the file does it matter what is in the buffer. -/
theorem xread_cases (avail : ℕ → ℕ) (junk : Junk) (n : ℕ) (file : Bytes) :
    xread avail (junk.fresh n) file = Format.xread n file ∨
      (∃ buf, xread avail (junk.fresh n) file = (0, buf, [])) ∧ Format.xread n file = (0, [], []) := by
  rw [xread_eq, fresh_length, Format.xread]
  split
  · exact .inr ⟨⟨_, rfl⟩, rfl⟩
  · exact .inl rfl

theorem readContent_eq (avail : ℕ → ℕ) (junk : Junk) (type : Bytes) (len : ℕ) (file : Bytes) :
    readContent avail junk type len file = Format.readContent type len file := by
  unfold readContent Format.readContent
  rcases xread_cases avail junk sha1Len file with hsha1 | ⟨⟨buf, hsha1⟩, hsha1'⟩ <;>
    rcases xread_cases avail junk len file with hdata | ⟨⟨buf', hdata⟩, hdata'⟩ <;>
    simp only [*, le_refl, if_true]

/-- `read_chunk` looks at the result of every call of `xread`, and so it does not depend on what is in the
    buffers. -/
theorem readChunk_eq (avail : ℕ → ℕ) (junk : Junk) (file : Bytes) :
    readChunk avail junk file = Format.readChunk file := by
  unfold readChunk Format.readChunk
  rcases xread_cases avail junk 1 file with htype | ⟨⟨buf, htype⟩, htype'⟩
  · rw [htype]
    obtain ⟨r, type, rest⟩ := Format.xread 1 file
    rcases xread_cases avail junk 8 rest with hlen | ⟨⟨buf, hlen⟩, hlen'⟩
    · simp only [hlen, readContent_eq]
    · simp only [hlen, hlen', le_refl, if_true]
  · simp only [htype, htype', lt_irrefl, if_true, if_false]

/-! ### `Decode` -/

section Decode
variable (sha1 : Bytes → Digest) (z : Zlib) (avail : ℕ → ℕ) (junk : Junk)

/-- One iteration of the main loop of `Decode`: it exits, it leaves the loop with the rest of the file, or
    it writes the data of a chunk. -/
inductive Decoded where
  | exit
  | stop (file : Bytes)
  | wrote (data : Bytes) (cache : Bytes → Option Bytes) (file : Bytes)

def decodeChunk (type : Option CompressType) (cache : Bytes → Option Bytes) (file : Bytes) : Decoded :=
  match readChunk avail junk file with
  | .exit => .exit
  | .eof => .stop []
  | .chunk r record file =>
    if r < 0 then .exit
    else if r = 0 then .stop file
    else
      match findEntry sha1 z type cache record with
      | none => .exit
      | some (data, cache) =>
        if toSize (int32 data.length) < data.length then .exit else .wrote data cache file

theorem decodeChunk_length {type : Option CompressType} {cache cache' : Bytes → Option Bytes}
    {file data rest : Bytes} (h : decodeChunk sha1 z avail junk type cache file = .wrote data cache' rest) :
    rest.length < file.length := by
  unfold decodeChunk at h
  rw [readChunk_eq] at h
  split at h
  · cases h
  · cases h
  · rename_i hread
    split_ifs at h
    split at h
    · cases h
    · split_ifs at h
      cases h
      exact Format.readChunk_length hread

/-- What the loop writes and the rest of the file; `none` is an exit. -/
def decodeLoop (type : Option CompressType) (cache : Bytes → Option Bytes) (file : Bytes) :
    Option (Bytes × Bytes) :=
  match _h : decodeChunk sha1 z avail junk type cache file with
  | .exit => none
  | .stop rest => some ([], rest)
  | .wrote data cache rest =>
    (decodeLoop type cache rest).map fun (out, rest) => (data ++ out, rest)
termination_by file.length
decreasing_by exact decodeChunk_length sha1 z avail junk _h

def decode (file : Bytes) : Option (Bytes × Bytes) :=
  (readHeader avail junk file).bind fun (compressType, file) =>
    decodeLoop sha1 z avail junk (CompressType.ofCode compressType) (fun _ => none) file

end Decode

/-! ### Well-formed archives -/

/-- The data of a `TYPE_COMPRESS` record. There is none for a type that is not compiled in. -/
def decompress (z : Inflater) : CompressType → Bytes → Option Bytes
  | .gzip, data => z.inflate data
  | .bzip2, _ => none
  | .none, data => some data

def Supported (type : CompressType) : Prop := type = .gzip ∨ type = .none

/-- A record in the file: its type, its length and its bytes. -/
def recordBytes : Record Bytes Bytes → Bytes
  | .fingerprint key => typeFingerprint :: (toLe 8 key.length ++ key)
  | .compress data => typeCompress :: (toLe 8 data.length ++ data)

section WellFormed
variable (sha1 : Bytes → Digest) (z : Inflater)

/-- The records behind others whose data is `seen`. -/
def Lawful (type : CompressType) : List Bytes → List (Record Bytes Bytes) → Prop
  | _, [] => True
  | seen, .fingerprint key :: records =>
    key.length = sha1Len ∧ (∃ x ∈ seen, (sha1 x).val = key) ∧ Lawful type seen records
  | seen, .compress data :: records =>
    1 ≤ data.length ∧ data.length < 2 ^ 64 ∧
      ∃ x, decompress z type data = some x ∧ Lawful type (x :: seen) records

/-- The file is a header and these records. -/
structure IsArchive (file : Bytes) (type : CompressType) (records : List (Record Bytes Bytes)) : Prop where
  supported : Supported type
  bytes : file = toLe 4 checkbit ++ type.code :: (records.map recordBytes).flatten
  lawful : Lawful sha1 z type [] records

def WellFormed (file : Bytes) : Prop := ∃ type records, IsArchive sha1 z file type records

/-- The longest data that `Decode` can take from a record. -/
def room : CompressType → ℕ
  | .gzip => uncompressBound
  | _ => 2 ^ 31 - 1

omit sha1 in
/-- The length of the record is a positive `int`, and its data is not empty and fits. -/
def Handled (type : CompressType) (data : Bytes) : Prop :=
  0 < int32 data.length ∧ ∃ x, decompress z type data = some x ∧ 1 ≤ x.length ∧ x.length ≤ room type

end WellFormed

/-! ### One record -/

theorem toLe_ofLe : ∀ bytes : Bytes, toLe bytes.length (ofLe bytes) = bytes
  | [] => rfl
  | b :: bytes => by
      have ih := toLe_ofLe bytes
      have hb := b.toNat_lt
      have hcons : ofLe (b :: bytes) = b.toNat + 256 * ofLe bytes := rfl
      have hlow : UInt8.ofNat (b.toNat + 256 * ofLe bytes) = b := by
        refine UInt8.toNat_inj.mp ?_
        rw [UInt8.toNat_ofNat']
        omega
      have hhigh : (b.toNat + 256 * ofLe bytes) / 256 = ofLe bytes := by omega
      rw [List.length_cons, hcons, toLe, hlow, hhigh, ih]

theorem ofLe_lt : ∀ bytes : Bytes, ofLe bytes < 256 ^ bytes.length
  | [] => by decide
  | b :: bytes => by
      have ih := ofLe_lt bytes
      have hb := b.toNat_lt
      have hcons : ofLe (b :: bytes) = b.toNat + 256 * ofLe bytes := rfl
      rw [List.length_cons, pow_succ, hcons]
      omega

/-- A call of `xread` that is taken for a success has read the front of the file. -/
theorem xread_pos {n : ℕ} {file : Bytes} (h : ¬(Format.xread n file).1 ≤ 0) :
    ∃ x rest, file = x ++ rest ∧ x.length = n ∧ Format.xread n file = (int32 n, x, rest) := by
  unfold Format.xread at h ⊢
  split
  · rename_i hshort
    rw [if_pos hshort] at h
    exact absurd le_rfl h
  · refine ⟨file.take n, file.drop n, (List.take_append_drop _ _).symm, ?_, rfl⟩
    rw [List.length_take]
    omega

/-- What `read_chunk` has seen of a record that it returns. -/
def Sound : Record Bytes Bytes → Prop
  | .fingerprint key => key.length = sha1Len
  | .compress data => 1 ≤ data.length ∧ data.length < 2 ^ 64 ∧ 0 < int32 data.length

/-- What the `switch` of `read_chunk` returns is in the file. -/
theorem readContent_inv {b : UInt8} {len : ℕ} {file rest : Bytes} {r : ℤ} {record : Record Bytes Bytes}
    (hlen : len < 2 ^ 64) (h : Format.readContent [b] len file = .chunk r record rest) :
    b :: (toLe 8 len ++ file) = recordBytes record ++ rest ∧ 0 < r ∧
      Sound record := by
  unfold Format.readContent at h
  dsimp only at h
  by_cases hb : b = typeFingerprint
  · subst hb
    rw [if_pos rfl] at h
    split_ifs at h with hsha1 hr
    obtain ⟨key, rest', rfl, hkey, hx⟩ := xread_pos hr
    rw [hx] at h
    obtain ⟨rfl, rfl, rfl⟩ := Format.Read.chunk.inj h
    rw [not_not] at hsha1
    have hpos : 0 < int32 len := by
      rw [hsha1]
      decide
    refine ⟨?_, hpos, hkey⟩
    rw [recordBytes, hkey, hsha1, List.cons_append, List.append_assoc]
  · have hne : ¬[b] = [typeFingerprint] := fun h => hb (List.singleton_inj.mp h)
    rw [if_neg hne] at h
    split_ifs at h with htype hzero hr
    obtain ⟨data, rest', rfl, hdata, hx⟩ := xread_pos hr
    rw [hx] at h hr
    obtain ⟨rfl, rfl, rfl⟩ := Format.Read.chunk.inj h
    obtain rfl := List.singleton_inj.mp htype
    dsimp only at hr
    rw [not_le, ← hdata] at hr
    rw [← hdata] at hzero hlen ⊢
    refine ⟨?_, hr, Nat.pos_of_ne_zero hzero, hlen, hr⟩
    rw [recordBytes, List.cons_append, List.append_assoc]

/-- What `read_chunk` returns is in the file. -/
theorem readChunk_inv {file rest : Bytes} {r : ℤ} {record : Record Bytes Bytes}
    (h : Format.readChunk file = .chunk r record rest) : file = recordBytes record ++ rest ∧ 0 < r ∧
      Sound record := by
  cases file with
  | nil => cases h
  | cons b file =>
    have hfirst : Format.xread 1 (b :: file) = (1, [b], file) := rfl
    unfold Format.readChunk at h
    rw [hfirst] at h
    dsimp only at h
    split_ifs at h with hneg hzero hr
    obtain ⟨len, rest', rfl, hlen, hx⟩ := xread_pos hr
    rw [hx] at h
    have hlt := ofLe_lt len
    rw [hlen] at hlt
    have hinv := readContent_inv (lt_of_lt_of_eq hlt (by norm_num)) h
    rwa [← hlen, toLe_ofLe] at hinv

/-- `read_chunk` returns 0 at the end of the file only. -/
theorem readChunk_eof {file : Bytes} (h : Format.readChunk file = .eof) : file = [] := by
  cases file with
  | nil => rfl
  | cons b file =>
    have hfirst : Format.xread 1 (b :: file) = (1, [b], file) := rfl
    unfold Format.readChunk Format.readContent at h
    rw [hfirst] at h
    dsimp only at h
    rw [if_neg (by decide), if_neg (by decide)] at h
    split_ifs at h

/-! ### The loop -/

/-- The data that `write` gets is accepted as written. -/
def Whole (x : Bytes) : Prop := ¬toSize (int32 x.length) < x.length

/-- The hash table knows the data `seen`. -/
structure Cached (sha1 : Bytes → Digest) (cache : Bytes → Option Bytes) (seen : List Bytes) : Prop where
  known : ∀ key, (cache key).isSome ↔ ∃ x ∈ seen, (sha1 x).val = key
  whole : ∀ key x, cache key = some x → Whole x

section Loop
variable {sha1 : Bytes → Digest} {z : Inflater} {avail : ℕ → ℕ} {junk : Junk}
  {cache cache' : Bytes → Option Bytes} {seen : List Bytes}

theorem cached_nil : Cached sha1 (fun _ => none) [] where
  known key := by simp
  whole key x h := by cases h

theorem Cached.update (h : Cached sha1 cache seen) {x : Bytes} (hx : Whole x) :
    Cached sha1 (Function.update cache (sha1 x).val (some x)) (x :: seen) where
  known key := by
    by_cases hkey : key = (sha1 x).val
    · subst hkey
      simp
    · rw [Function.update_of_ne hkey, h.known]
      constructor
      · rintro ⟨y, hy, he⟩
        exact ⟨y, List.mem_cons_of_mem _ hy, he⟩
      · rintro ⟨y, hy, he⟩
        rcases List.mem_cons.mp hy with rfl | hy
        · exact absurd he.symm hkey
        · exact ⟨y, hy, he⟩
  whole key y hy := by
    by_cases hkey : key = (sha1 x).val
    · subst hkey
      rw [Function.update_self] at hy
      exact Option.some.inj hy ▸ hx
    · rw [Function.update_of_ne hkey] at hy
      exact h.whole key y hy

theorem whole_of_lt {x : Bytes} (h : x.length < 2 ^ 31) : Whole x := by
  have hsize := toSize_of_nonneg (z := (x.length : ℤ)) (by omega) (by omega)
  rw [Whole, int32_of_lt h]
  omega

/-- When `Decode` takes the data of a record: it has to have room for it. -/
theorem uncompressChunk_iff (type : Option CompressType) (data x : Bytes) :
    uncompressChunk z.toZlib type data = some x ∧ 0 < int32 x.length ∧ Whole x ↔
      decompress z (type.getD .bzip2) data = some x ∧ 1 ≤ x.length ∧ x.length ≤ room (type.getD .bzip2) := by
  have hsmall : 1 ≤ x.length → x.length < 2 ^ 31 → 0 < int32 x.length ∧ Whole x := fun h1 h2 =>
    ⟨by rw [int32_of_lt h2]; omega, whole_of_lt h2⟩
  have hlarge : 0 < int32 x.length → Whole x → 1 ≤ x.length ∧ x.length < 2 ^ 31 := by
    intro hpos hwhole
    have hlt := int32_lt x.length
    have hle : int32 x.length ≤ x.length := int32_le
    have hsize := toSize_of_nonneg hpos.le hlt
    rw [Whole] at hwhole
    omega
  rcases type with _ | _ | _ | _
  · simp [uncompressChunk, decompress]
  · simp only [uncompressChunk, z.uncompress_eq, Option.filter_eq_some_iff, decide_eq_true_eq, decompress,
      Option.getD_some, room]
    constructor
    · rintro ⟨⟨hx, hle⟩, hpos, hwhole⟩
      exact ⟨hx, (hlarge hpos hwhole).1, hle⟩
    · rintro ⟨hx, hpos, hle⟩
      exact ⟨⟨hx, hle⟩, hsmall hpos (by rw [uncompressBound] at hle; omega)⟩
  · simp [uncompressChunk, decompress]
  · simp only [uncompressChunk, decompress, Option.getD_some, room]
    constructor
    · rintro ⟨hx, hpos, hwhole⟩
      obtain ⟨h1, h2⟩ := hlarge hpos hwhole
      exact ⟨hx, h1, by omega⟩
    · rintro ⟨hx, hpos, hle⟩
      exact ⟨hx, hsmall hpos (by omega)⟩

/-- The loop ends at the end of the file only. -/
theorem decodeChunk_stop {type : Option CompressType} {file rest : Bytes}
    (h : decodeChunk sha1 z.toZlib avail junk type cache file = .stop rest) : file = [] ∧ rest = [] := by
  unfold decodeChunk at h
  rw [readChunk_eq] at h
  cases hread : Format.readChunk file with
  | exit =>
    rw [hread] at h
    cases h
  | eof =>
    rw [hread] at h
    exact ⟨readChunk_eof hread, (Decoded.stop.inj h).symm⟩
  | chunk r record rest' =>
    obtain ⟨-, hr, -⟩ := readChunk_inv hread
    rw [hread] at h
    dsimp only at h
    rw [if_neg (by omega), if_neg (by omega)] at h
    split at h
    · cases h
    · split_ifs at h

/-- What an iteration that writes has read. -/
theorem decodeChunk_wrote {type : Option CompressType} {file data rest : Bytes}
    (hc : Cached sha1 cache seen)
    (h : decodeChunk sha1 z.toZlib avail junk type cache file = .wrote data cache' rest) :
    ∃ record, file = recordBytes record ++ rest ∧ ∃ seen', Cached sha1 cache' seen' ∧
      ∀ records, Lawful sha1 z (type.getD .bzip2) seen' records →
        Lawful sha1 z (type.getD .bzip2) seen (record :: records) := by
  unfold decodeChunk at h
  rw [readChunk_eq] at h
  cases hread : Format.readChunk file with
  | exit =>
    rw [hread] at h
    cases h
  | eof =>
    rw [hread] at h
    cases h
  | chunk r record rest' =>
    obtain ⟨hfile, hr, hsound⟩ := readChunk_inv hread
    rw [hread] at h
    dsimp only at h
    rw [if_neg (by omega), if_neg (by omega)] at h
    cases record with
    | fingerprint key =>
      rw [findEntry] at h
      cases hkey : cache key with
      | none =>
        rw [hkey] at h
        cases h
      | some x =>
        rw [hkey, Option.map_some] at h
        dsimp only at h
        split_ifs at h with hwhole
        obtain ⟨rfl, rfl, rfl⟩ := Decoded.wrote.inj h
        have hseen := (hc.known key).mp (by rw [hkey]; rfl)
        exact ⟨_, hfile, seen, hc, fun records hrec => ⟨hsound, hseen, hrec⟩⟩
    | compress content =>
      rw [findEntry] at h
      cases hx : uncompressChunk z.toZlib type content with
      | none =>
        rw [hx] at h
        cases h
      | some x =>
        rw [hx, Option.bind_some] at h
        by_cases hpos : int32 x.length ≤ 0
        · rw [if_pos hpos] at h
          cases h
        · rw [if_neg hpos] at h
          dsimp only at h
          split_ifs at h with hwhole
          obtain ⟨rfl, rfl, rfl⟩ := Decoded.wrote.inj h
          obtain ⟨hdec, -, -⟩ := (uncompressChunk_iff type content x).mp ⟨hx, not_le.mp hpos, hwhole⟩
          exact ⟨_, hfile, x :: seen, hc.update hwhole,
            fun records hrec => ⟨hsound.1, hsound.2.1, x, hdec, hrec⟩⟩

/-- What the loop accepts is a list of records, and it reads all of it. -/
theorem decodeLoop_sound (type : Option CompressType) (n : ℕ) : ∀ {file out rest : Bytes}
    {cache : Bytes → Option Bytes} {seen : List Bytes}, file.length = n → Cached sha1 cache seen →
    decodeLoop sha1 z.toZlib avail junk type cache file = some (out, rest) → rest = [] ∧
      ∃ records, file = (records.map recordBytes).flatten ∧ Lawful sha1 z (type.getD .bzip2) seen records := by
  induction n using Nat.strong_induction_on with
  | _ n ih =>
    intro file out rest cache seen hn hc h
    rw [decodeLoop] at h
    split at h
    · cases h
    · rename_i hchunk
      obtain ⟨rfl, rfl⟩ := decodeChunk_stop hchunk
      obtain ⟨-, rfl⟩ := Prod.mk.inj (Option.some.inj h)
      exact ⟨rfl, [], rfl, trivial⟩
    · rename_i data cache' rest' hchunk
      obtain ⟨⟨out', rest''⟩, hloop, hout⟩ := Option.map_eq_some_iff.mp h
      obtain ⟨-, rfl⟩ := Prod.mk.inj hout
      have hlt := decodeChunk_length _ _ _ _ hchunk
      obtain ⟨record, hfile, seen', hc', hlaw⟩ := decodeChunk_wrote hc hchunk
      obtain ⟨hrest, records, rfl, hrecords⟩ := ih _ (hn ▸ hlt) rfl hc' hloop
      refine ⟨hrest, record :: records, ?_, hlaw records hrecords⟩
      rw [hfile, List.map_cons, List.flatten_cons]

/-- A fingerprint of data that is known. -/
theorem decodeChunk_fingerprint (type : Option CompressType) (hc : Cached sha1 cache seen) {key rest : Bytes}
    (hlen : key.length = sha1Len) (hkey : ∃ x ∈ seen, (sha1 x).val = key) :
    ∃ x, decodeChunk sha1 z.toZlib avail junk type cache (recordBytes (.fingerprint key) ++ rest) =
      .wrote x cache rest := by
  obtain ⟨x, hx⟩ := Option.isSome_iff_exists.mp ((hc.known key).mpr hkey)
  refine ⟨x, ?_⟩
  unfold decodeChunk
  rw [readChunk_eq, recordBytes, Format.readChunk_fingerprint ⟨key, hlen⟩]
  dsimp only
  rw [if_neg (by decide), if_neg (by decide), findEntry, hx, Option.map_some]
  exact if_neg (hc.whole key x hx)

/-- The data of a record is taken exactly when it can be handled. -/
theorem decodeChunk_compress {type : CompressType} {data x rest : Bytes} (hne : 1 ≤ data.length)
    (hlen : data.length < 2 ^ 64) (hx : decompress z type data = some x) :
    decodeChunk sha1 z.toZlib avail junk (some type) cache (recordBytes (.compress data) ++ rest) =
      if 0 < int32 data.length ∧ 1 ≤ x.length ∧ x.length ≤ room type then
        .wrote x (Function.update cache (sha1 x).val (some x)) rest
      else .exit := by
  have hnil : data ≠ [] := List.length_pos_iff.mp hne
  unfold decodeChunk
  rw [readChunk_eq, recordBytes, Format.readChunk_compress hnil hlen]
  by_cases hr : int32 data.length ≤ 0
  · rw [if_pos hr, if_neg fun h => absurd h.1 (not_lt.mpr hr)]
  · have hr' := not_le.mp hr
    rw [if_neg hr]
    dsimp only
    rw [if_neg (not_lt.mpr hr'.le), if_neg hr'.ne', findEntry]
    by_cases hroom : 1 ≤ x.length ∧ x.length ≤ room type
    · obtain ⟨hu, hpos, hwhole⟩ := (uncompressChunk_iff (some type) data x).mpr ⟨hx, hroom⟩
      rw [hu, Option.bind_some, if_neg (not_le.mpr hpos), if_pos ⟨hr', hroom⟩]
      exact if_neg hwhole
    · rw [if_neg fun h => hroom h.2]
      cases hu : uncompressChunk z.toZlib (some type) data with
      | none => rfl
      | some y =>
        rw [Option.bind_some]
        by_cases hpos : int32 y.length ≤ 0
        · rw [if_pos hpos]
        · rw [if_neg hpos]
          refine if_pos ?_
          by_contra hwhole
          obtain ⟨hy, hroom'⟩ := (uncompressChunk_iff (some type) data y).mp ⟨hu, not_le.mp hpos, hwhole⟩
          obtain rfl : x = y := Option.some.inj (hx.symm.trans hy)
          exact hroom hroom'

theorem decodeLoop_exit {type : Option CompressType} {file : Bytes}
    (h : decodeChunk sha1 z.toZlib avail junk type cache file = .exit) :
    decodeLoop sha1 z.toZlib avail junk type cache file = none := by
  rw [decodeLoop]
  split <;> simp_all

theorem decodeLoop_wrote {type : Option CompressType} {file data rest : Bytes}
    (h : decodeChunk sha1 z.toZlib avail junk type cache file = .wrote data cache' rest) :
    (decodeLoop sha1 z.toZlib avail junk type cache file).isSome =
      (decodeLoop sha1 z.toZlib avail junk type cache' rest).isSome := by
  rw [decodeLoop]
  split <;> simp_all

theorem decodeLoop_nil (type : Option CompressType) :
    decodeLoop sha1 z.toZlib avail junk type cache [] = some ([], []) := by
  have hchunk : decodeChunk sha1 z.toZlib avail junk type cache [] = .stop [] := by
    rw [decodeChunk, readChunk_eq]
    rfl
  rw [decodeLoop]
  split <;> simp_all

/-- The loop accepts the records of an archive exactly when it can handle all of them. -/
theorem decodeLoop_records {type : CompressType} : ∀ {records : List (Record Bytes Bytes)}
    {cache : Bytes → Option Bytes} {seen : List Bytes}, Cached sha1 cache seen →
    Lawful sha1 z type seen records →
    ((decodeLoop sha1 z.toZlib avail junk (some type) cache (records.map recordBytes).flatten).isSome ↔
      ∀ data, .compress data ∈ records → Handled z type data)
  | [], cache, seen, _, _ => by
      rw [List.map_nil, List.flatten_nil, decodeLoop_nil]
      exact iff_of_true rfl fun _ h => absurd h List.not_mem_nil
  | .fingerprint key :: records, cache, seen, hc, hlaw => by
      obtain ⟨hlen, hkey, hlaw⟩ := hlaw
      rw [List.map_cons, List.flatten_cons]
      obtain ⟨x, hchunk⟩ := decodeChunk_fingerprint (some type) hc hlen hkey
      rw [decodeLoop_wrote hchunk, decodeLoop_records hc hlaw]
      exact forall_congr' fun data => by simp
  | .compress data :: records, cache, seen, hc, hlaw => by
      obtain ⟨hne, hlen, x, hx, hlaw⟩ := hlaw
      have hhandled : Handled z type data ↔
          0 < int32 data.length ∧ 1 ≤ x.length ∧ x.length ≤ room type := by
        simp [Handled, hx]
      rw [List.map_cons, List.flatten_cons]
      by_cases hdata : Handled z type data
      · have hwhole := ((uncompressChunk_iff (some type) data x).mpr ⟨hx, (hhandled.mp hdata).2⟩).2.2
        rw [decodeLoop_wrote ((decodeChunk_compress hne hlen hx).trans (if_pos (hhandled.mp hdata))),
          decodeLoop_records (hc.update hwhole) hlaw]
        constructor
        · intro h y hy
          rcases List.mem_cons.mp hy with hy | hy
          · exact Record.compress.inj hy ▸ hdata
          · exact h y hy
        · exact fun h y hy => h y (List.mem_cons_of_mem _ hy)
      · rw [decodeLoop_exit ((decodeChunk_compress hne hlen hx).trans (if_neg fun h => hdata (hhandled.mpr h)))]
        exact iff_of_false nofun fun h => hdata (h data (List.mem_cons_self ..))

/-! ### The header -/

/-- Four bytes are the check bytes when they stand for `CHECKBIT`. -/
theorem check_iff {check : Bytes} (h : check.length = 4) : ofLe check = checkbit ↔ check = toLe 4 checkbit := by
  constructor
  · intro hc
    rw [← hc, ← h, toLe_ofLe]
  · rintro rfl
    rfl

/-- A file that ends inside the check bytes. -/
theorem decode_short {file : Bytes} (hlen : file.length ≤ 4) :
    decode sha1 z.toZlib avail junk file =
      if file ++ junk.checkbit.drop file.length = toLe 4 checkbit then some ([], []) else none := by
  have hjunk := junk.checkbit_length
  have hcheck : (file ++ junk.checkbit.drop file.length).length = 4 := by
    rw [List.length_append, List.length_drop]
    omega
  have hread : xread avail junk.checkbit file =
      (if file.length < 4 then 0 else int32 (4 : ℕ), file ++ junk.checkbit.drop file.length, []) := by
    rw [xread_eq, hjunk]
    split
    · rfl
    · obtain hfour : file.length = 4 := by omega
      rw [List.take_of_length_le hlen, List.drop_of_length_le hlen, hfour,
        List.drop_of_length_le hjunk.le, List.append_nil]
  have htype : xread avail [junk.compressType] [] = (0, [junk.compressType], []) := xread_eq _ _ _
  have hr : ¬(if file.length < 4 then 0 else int32 (4 : ℕ)) < 0 := by
    rw [int32_of_lt (by omega)]
    split <;> omega
  unfold decode readHeader
  rw [hread]
  dsimp only
  rw [if_neg hr, htype]
  dsimp only
  rw [if_neg (lt_irrefl _)]
  by_cases hc : file ++ junk.checkbit.drop file.length = toLe 4 checkbit
  · rw [if_neg (not_not.mpr ((check_iff hcheck).mpr hc)), if_pos hc, Option.bind_some, decodeLoop_nil]
  · rw [if_pos fun h => hc ((check_iff hcheck).mp h), if_neg hc, Option.bind_none]

/-- A file with a header. -/
theorem decode_header {b : UInt8} {check rest : Bytes} (hcheck : check.length = 4) :
    decode sha1 z.toZlib avail junk (check ++ b :: rest) =
      if check = toLe 4 checkbit then
        decodeLoop sha1 z.toZlib avail junk (CompressType.ofCode b) (fun _ => none) rest
      else none := by
  have hread : xread avail junk.checkbit (check ++ b :: rest) = (4, check, b :: rest) := by
    have hfour : int32 (4 : ℕ) = 4 := int32_of_lt (by omega)
    rw [xread_eq, junk.checkbit_length, if_neg (by rw [List.length_append]; omega), hfour,
      List.take_left' hcheck, List.drop_left' hcheck]
  have htype : xread avail [junk.compressType] (b :: rest) = (1, [b], rest) := by
    have hone : int32 (1 : ℕ) = 1 := int32_of_lt (by omega)
    rw [xread_eq, List.length_singleton, if_neg (by rw [List.length_cons]; omega), hone]
    rfl
  unfold decode readHeader
  rw [hread]
  dsimp only
  rw [if_neg (by decide : ¬(4 : ℤ) < 0), htype]
  dsimp only
  rw [if_neg (by decide : ¬(1 : ℤ) < 0)]
  by_cases hc : check = toLe 4 checkbit
  · rw [if_neg (not_not.mpr ((check_iff hcheck).mpr hc)), if_pos hc]
    rfl
  · rw [if_pos fun h => hc ((check_iff hcheck).mp h), if_neg hc, Option.bind_none]

end Loop

/-! ### What is accepted -/

section Accepts
variable (sha1 : Bytes → Digest) (z : Inflater)

/-- Whatever `read` returns and whatever is on the stack: `Decode` comes to its end exactly when the file
    is well formed, and then it has read all of it. -/
def AcceptsWellFormed (file : Bytes) : Prop :=
  ∀ avail junk, ((decode sha1 z.toZlib avail junk file).isSome ↔ WellFormed sha1 z file) ∧
    ∀ out rest, decode sha1 z.toZlib avail junk file = some (out, rest) → rest = []

/-- The file goes on behind the check bytes, or differs from them; it is more than a header with a type
    that is not supported; and if it is an archive, then the data of its records can be handled. -/
structure Tractable (file : Bytes) : Prop where
  longer : ¬file <+: toLe 4 checkbit
  supported : ∀ b, file = toLe 4 checkbit ++ [b] → ∃ type, Supported type ∧ type.code = b
  handled : ∀ type records, IsArchive sha1 z file type records →
    ∀ data, .compress data ∈ records → Handled z type data

variable {sha1 z}

/-- What comes out of a header and a loop that is left is an archive, unless nothing has been read. -/
theorem isArchive_of_loop {b : UInt8} {rest : Bytes} {records : List (Record Bytes Bytes)}
    (hrest : rest = (records.map recordBytes).flatten)
    (hlaw : Lawful sha1 z ((CompressType.ofCode b).getD .bzip2) [] records)
    (htype : records = [] → ∃ type, Supported type ∧ type.code = b) :
    WellFormed sha1 z (toLe 4 checkbit ++ b :: rest) := by
  cases records with
  | nil =>
    obtain ⟨type, hsup, rfl⟩ := htype rfl
    exact ⟨type, [], hsup, by rw [hrest], trivial⟩
  | cons record records =>
    -- without an earlier record there is nothing to name, so the first one has data
    cases record with
    | fingerprint key =>
      obtain ⟨-, ⟨x, hx, -⟩, -⟩ := hlaw
      cases hx
    | compress data =>
      obtain ⟨-, -, x, hx, -⟩ := id hlaw
      have hb : ∀ type, CompressType.ofCode b = some type → type.code = b := by
        intro type h
        unfold CompressType.ofCode at h
        split_ifs at h with h0 h1 h2 <;> cases h <;> simp_all [CompressType.code]
      cases hcode : CompressType.ofCode b with
      | none =>
        rw [hcode] at hx
        cases hx
      | some type =>
        rw [hcode, Option.getD_some] at hx hlaw
        have hsup : Supported type := by
          cases type with
          | gzip => exact .inl rfl
          | bzip2 => cases hx
          | none => exact .inr rfl
        exact ⟨type, _, hsup, by rw [hb type hcode, hrest], hlaw⟩

theorem IsArchive.decode_isSome {file : Bytes} {type : CompressType} {records : List (Record Bytes Bytes)}
    (h : IsArchive sha1 z file type records) (avail : ℕ → ℕ) (junk : Junk) :
    (decode sha1 z.toZlib avail junk file).isSome ↔ ∀ data, .compress data ∈ records → Handled z type data := by
  rw [h.bytes, decode_header (Format.toLe_length _ _), if_pos rfl, CompressType.ofCode_code]
  exact decodeLoop_records cached_nil h.lawful

/-- A file has a header, or ends before its last byte. -/
theorem header_cases (file : Bytes) : file.length ≤ 4 ∨
    ∃ check b rest, check.length = 4 ∧ file = check ++ b :: rest := by
  rcases Nat.lt_or_ge 4 file.length with h | h
  · refine .inr ⟨file.take 4, file[4], file.drop 5, ?_, ?_⟩
    · rw [List.length_take]
      omega
    · rw [List.getElem_cons_drop, List.take_append_drop]
  · exact .inl h

/-- CORRECT: `Decode` accepts exactly the well-formed archives and reads all of them, on exactly these
    files. -/
theorem accepts_iff_tractable (sha1 : Bytes → Digest) (z : Inflater) (file : Bytes) :
    AcceptsWellFormed sha1 z file ↔ Tractable sha1 z file := by
  have hjunk : ∃ junk : Junk, junk.checkbit = toLe 4 checkbit :=
    ⟨⟨toLe 4 checkbit, Format.toLe_length _ _, 0, fun _ => 0⟩, rfl⟩
  have hlong : WellFormed sha1 z file → 4 < file.length := by
    rintro ⟨type, records, h⟩
    rw [h.bytes, List.length_append, Format.toLe_length, List.length_cons]
    omega
  constructor
  · intro h
    refine ⟨fun hprefix => ?_, fun b hb => ?_, fun type records harch => ?_⟩
    · -- the stack completes the check bytes
      obtain ⟨junk, hcheck⟩ := hjunk
      have hlen := hprefix.length_le
      rw [Format.toLe_length] at hlen
      obtain ⟨rest, hrest⟩ := hprefix
      have hdrop : file ++ junk.checkbit.drop file.length = toLe 4 checkbit := by
        rw [hcheck, ← hrest, List.drop_left' rfl]
      have hwf := (h (fun _ => 0) junk).1.mp (by rw [decode_short hlen, if_pos hdrop]; rfl)
      exact absurd (hlong hwf) (not_lt.mpr hlen)
    · obtain ⟨junk, -⟩ := hjunk
      have hsome : (decode sha1 z.toZlib (fun _ => 0) junk file).isSome := by
        rw [hb, decode_header (Format.toLe_length _ _), if_pos rfl, decodeLoop_nil]
        rfl
      obtain ⟨type, records, harch⟩ := (h (fun _ => 0) junk).1.mp hsome
      have hbytes := hb.symm.trans harch.bytes
      rw [List.append_cancel_left_eq, List.cons.injEq] at hbytes
      exact ⟨type, harch.supported, hbytes.1.symm⟩
    · obtain ⟨junk, -⟩ := hjunk
      exact (harch.decode_isSome (fun _ => 0) junk).mp ((h _ junk).1.mpr ⟨type, records, harch⟩)
  · intro h avail junk
    have hsound : ∀ out rest, decode sha1 z.toZlib avail junk file = some (out, rest) →
        WellFormed sha1 z file ∧ rest = [] := by
      intro out rest hdecode
      rcases header_cases file with hshort | ⟨check, b, content, hcheck, rfl⟩
      · rw [decode_short hshort] at hdecode
        split at hdecode
        · rename_i hprefix
          exact absurd ⟨_, hprefix⟩ h.longer
        · cases hdecode
      · rw [decode_header hcheck] at hdecode
        split at hdecode
        · rename_i hc
          subst hc
          obtain ⟨hrest, records, hcontent, hlaw⟩ := decodeLoop_sound _ _ rfl cached_nil hdecode
          refine ⟨isArchive_of_loop hcontent hlaw fun hnil => h.supported b ?_, hrest⟩
          rw [hcontent, hnil]
          rfl
        · cases hdecode
    refine ⟨⟨fun hsome => ?_, fun ⟨type, records, harch⟩ => ?_⟩, fun out rest hdecode => (hsound out rest hdecode).2⟩
    · obtain ⟨⟨out, rest⟩, hdecode⟩ := Option.isSome_iff_exists.mp hsome
      exact (hsound out rest hdecode).1
    · exact (harch.decode_isSome avail junk).mpr (h.handled type records harch)

/-- A zlib that only puts a byte before the data. -/
def storeInflater : Inflater where
  compress x := 0 :: x
  uncompress n y := (some y.tail).filter fun x => x.length ≤ n
  uncompress_compress n x := by by_cases h : x.length ≤ n <;> simp [Option.filter, h]
  compress_ne_nil x := by simp
  inflate y := some y.tail
  uncompress_eq n y := rfl

/-- The four check bytes alone are no archive, and `Decode` accepts them. -/
theorem check_bytes_accepted :
    let sha1 : Bytes → Digest := fun _ => ⟨List.replicate 20 0, rfl⟩
    let junk : Junk := ⟨[0, 0, 0, 0], rfl, 0, fun _ => 0⟩
    decode sha1 storeInflater.toZlib (fun _ => 0) junk [0x40, 0xe2, 0x01, 0x00] = some ([], []) ∧
      ¬WellFormed sha1 storeInflater [0x40, 0xe2, 0x01, 0x00] ∧
      ¬AcceptsWellFormed sha1 storeInflater [0x40, 0xe2, 0x01, 0x00] := by
  intro sha1 junk
  have hdecode : decode sha1 storeInflater.toZlib (fun _ => 0) junk [0x40, 0xe2, 0x01, 0x00] = some ([], []) := by
    rw [decode_short (by decide)]
    rfl
  have hwf : ¬WellFormed sha1 storeInflater [0x40, 0xe2, 0x01, 0x00] := by
    rintro ⟨type, records, h⟩
    have hlen : 4 = _ := congrArg List.length h.bytes
    rw [List.length_append, Format.toLe_length, List.length_cons] at hlen
    omega
  refine ⟨hdecode, hwf, fun h => hwf ((h (fun _ => 0) junk).1.mp ?_)⟩
  rw [hdecode]
  rfl

end Accepts

end Turkey.Accept
