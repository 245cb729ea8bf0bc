import Mathlib.Data.List.GetD
import Turkey.Dedup.Format
import Turkey.Dedup.Simulation

/-! Decoding what has been encoded. The serial encoder and the pipeline write the same records for the same
    chunks, whatever the threads do: `archive` over the contents of the chunks. `Decode` gives these
    chunks back as long as their data can be uncompressed into its buffer of `UNCOMPRESS_BOUND` bytes.
    The encoder knows no such bound: where the input has no Rabin boundary a chunk gets as long as the
    input. -/

namespace Turkey.RoundTrip
open Turkey.Run
open Turkey.Rabin
open Turkey.Fragment (Sized serialChunks)
open Turkey.Format
open Turkey.Archive (Record archive recordAt)
open Turkey.Reorder (Chunk Plan)
open Turkey.Pipeline (Config Thread State)

/-! ### The records of the two encoders -/

section Records
variable (sha1 : Bytes → Digest) (z : Zlib) (type : CompressType)

/-- What `SerialIntegratedPipeline` writes for its chunks, with the keys of the hash table: the serial
    `write_chunk_to_file` goes by the result of `sub_Deduplicate` alone. -/
def serialRecords : List Digest → List Bytes → List (Record Digest (Option Bytes))
  | _, [] => []
  | cache, x :: xs =>
    if sha1 x ∈ cache then .fingerprint (sha1 x) :: serialRecords cache xs
    else .compress (packed z type x) :: serialRecords (sha1 x :: cache) xs

theorem serialRecords_eq : ∀ {cache : List Digest} {seen xs : List Bytes},
    (∀ d, d ∈ cache ↔ ∃ y ∈ seen, sha1 y = d) →
    serialRecords sha1 z type cache xs = archive sha1 (packed z type) id seen xs
  | _, _, [], _ => rfl
  | cache, seen, x :: xs, h => by
      rw [serialRecords, archive, recordAt]
      by_cases hx : sha1 x ∈ cache
      · rw [if_pos hx, if_pos ((h _).mp hx), serialRecords_eq]
        intro d
        rw [h d]
        constructor
        · rintro ⟨y, hy, rfl⟩
          exact ⟨y, List.mem_append_left _ hy, rfl⟩
        · rintro ⟨y, hy, rfl⟩
          rcases List.mem_append.mp hy with hy | hy
          · exact ⟨y, hy, rfl⟩
          · rw [List.mem_singleton.mp hy]
            exact (h _).mp hx
      · rw [if_neg hx, if_neg fun he => hx ((h _).mpr he), serialRecords_eq]
        · rfl
        · intro d
          simp only [List.mem_cons, h, List.mem_append, List.not_mem_nil, or_false, or_and_right,
            exists_or, exists_eq_left]
          rw [or_comm, eq_comm]

/-- The coarse and fine chunks of the input as a plan for the threads. -/
def plan (rows : List (List Bytes)) (h : ∀ row ∈ rows, row ≠ []) : Plan where
  coarse := rows.length
  fine l := (rows.getD l []).length
  fine_pos l hl := by
    rw [List.getD_eq_getElem _ _ hl]
    exact List.length_pos_iff.mpr (h _ (List.getElem_mem hl))

/-- The data of a chunk. -/
def content (rows : List (List Bytes)) (c : Chunk) : Bytes := (rows.getD c.l1num []).getD c.l2num []

theorem map_getD_range {α : Type*} (xs : List α) (d : α) : (List.range xs.length).map (xs.getD · d) = xs := by
  apply List.ext_getElem
  · simp
  · intro i h1 h2
    simp [List.getElem?_eq_getElem h2]

theorem file_content (rows : List (List Bytes)) (h : ∀ row ∈ rows, row ≠ []) :
    (plan rows h).file.map (content rows) = rows.flatten := by
  have hrow : ∀ l, ((List.range (rows.getD l []).length).map ((plan rows h).chunk l)).map (content rows) =
      rows.getD l [] := by
    intro l
    rw [List.map_map]
    exact map_getD_range (rows.getD l []) []
  calc (plan rows h).file.map (content rows)
      = (List.range rows.length).flatMap (rows.getD · []) := by
        rw [Plan.file, List.map_flatMap]
        exact congrArg (List.flatMap · (List.range rows.length)) (funext hrow)
    _ = rows.flatten := by rw [List.flatMap_def, map_getD_range]

end Records

/-! ### The pipeline -/

section Pipeline
variable {c : Config} {D κ : Type*} [DecidableEq D] {p : Plan} {digest : Chunk → D} {packed : Chunk → κ}

/-- Only chunks of the file have been hashed. -/
theorem mem_file_of_hashed {s : State c D κ} {e : Archive.Encoder Chunk D κ}
    (h : Pipeline.Refines p digest packed s e) {x : Chunk} (hx : e.stage x ≠ .deduplicate) : x ∈ p.file := by
  have hcons := h.conserved
  rw [Pipeline.Conserved] at hcons
  rw [← Multiset.mem_coe, ← hcons, Multiset.mem_add, Multiset.mem_bind]
  cases hst : e.stage x with
  | deduplicate => exact absurd hst hx
  | compress => exact .inl ⟨_, (h.simulates.compressing x).mp hst, Multiset.mem_singleton_self x⟩
  | reorder =>
    rcases (h.simulates.reordering x).mp hst with hmem | hmem
    · exact .inl ⟨_, hmem, Multiset.mem_singleton_self x⟩
    · exact .inr (Multiset.mem_coe.mpr hmem)

/-- When `Reorder` has returned, the records are those of the contents in file order. -/
theorem pipeline_records {β : Type*} {content : Chunk → β} {f : β → D} {g : β → κ} {s : State c D κ}
    {ts : List (Thread c)} (hinj : ∀ i ∈ p.file, ∀ j ∈ p.file, f (content i) = f (content j) →
      content i = content j)
    (hs : exec (Pipeline.step p (f ∘ content) (g ∘ content)) (State.new c p) ts = some s)
    (hdone : s.reorder.pc = .done) : s.reorder.out = archive f g id [] (p.file.map content) := by
  obtain ⟨es, e, -, hR⟩ := Pipeline.pipeline_refines hs
  obtain ⟨hwritten, -, -⟩ := hR.flushed (.inr hdone)
  have hrest := hR.simulates.rest
  rw [hwritten, List.append_right_eq_self] at hrest
  obtain ⟨done, hfile, hsound⟩ := hR.written
  rw [hrest, List.append_nil] at hfile
  subst hfile
  rw [← hR.simulates.out, hsound.out]
  refine Archive.archive_map content f g fun i hi => ?_
  obtain ⟨hdig, hst, -⟩ := hsound.cached _ _ (hsound.known i (hsound.hashed i hi))
  exact hinj _ (mem_file_of_hashed hR hst) i hi hdig

end Pipeline

/-! ### Reading the records back -/

section Decode
variable {sha1 : Bytes → Digest} {z : Zlib} {type : CompressType} {cache cache' : Bytes → Option Bytes}

theorem decodeLoop_exit {file : Bytes} (h : decodeChunk sha1 z (some type) cache file = .exit) :
    decodeLoop sha1 z (some type) cache file = none := by
  rw [decodeLoop]
  split <;> simp_all

theorem decodeLoop_wrote {file data rest : Bytes}
    (h : decodeChunk sha1 z (some type) cache file = .wrote data cache' rest) :
    decodeLoop sha1 z (some type) cache file =
      (decodeLoop sha1 z (some type) cache' rest).map fun out => data ++ out := by
  rw [decodeLoop]
  split <;> simp_all

/-- `Decode` over the records for `xs`, when it has the chunks `seen` in its hash table. -/
theorem decodeLoop_archive : ∀ {xs seen : List Bytes} {cache : Bytes → Option Bytes} {parts : List Bytes},
    (∀ x ∈ xs, Sized x) → (∀ y ∈ seen, Fits type y) → (∀ y ∈ seen, cache (sha1 y).val = some y) →
    (∀ x ∈ seen ++ xs, ∀ y ∈ seen ++ xs, sha1 x = sha1 y → x = y) →
    (archive sha1 (packed z type) id seen xs).mapM writeRecord = some parts →
    decodeLoop sha1 z (some type) cache parts.flatten =
      if ∀ x ∈ xs, Fits type x then some xs.flatten else none
  | [], seen, cache, parts, _, _, _, _, h => by
      cases h
      rw [decodeLoop]
      rfl
  | x :: xs, seen, cache, parts, hsized, hfits, hcache, hinj, h => by
      -- the hash table of the decoder grows with `seen`, by a new entry or by none
      rw [archive, List.mapM_cons] at h
      obtain ⟨file, hfile, h⟩ := Option.bind_eq_some_iff.mp h
      obtain ⟨parts, hparts, h⟩ := Option.bind_eq_some_iff.mp h
      cases h
      have hx := hsized x (List.mem_cons_self ..)
      have hxs : ∀ y ∈ xs, Sized y := fun y hy => hsized y (List.mem_cons_of_mem _ hy)
      have hmem : x ∈ seen ++ x :: xs := List.mem_append_right _ (List.mem_cons_self ..)
      have hinj' : ∀ a ∈ seen ++ [x] ++ xs, ∀ b ∈ seen ++ [x] ++ xs, sha1 a = sha1 b → a = b := by
        rwa [List.append_assoc, List.singleton_append]
      rw [List.flatten_cons]
      unfold recordAt at hfile
      split at hfile
      · -- the data has come before
        rename_i hseen
        obtain ⟨y, hy, hyx⟩ := hseen
        obtain rfl := hinj y (List.mem_append_left _ hy) x hmem hyx
        rw [decodeLoop_wrote (decodeChunk_fingerprint hx (hcache y hy) hfile),
          decodeLoop_archive hxs ?_ ?_ hinj' hparts]
        · simp only [List.forall_mem_cons, hfits y hy, true_and, List.flatten_cons]
          split <;> rfl
        · exact List.forall_mem_append.mpr ⟨hfits, List.forall_mem_singleton.mpr (hfits y hy)⟩
        · exact List.forall_mem_append.mpr ⟨hcache, List.forall_mem_singleton.mpr (hcache y hy)⟩
      · obtain ⟨data, hdata, hfile⟩ := Option.bind_eq_some_iff.mp hfile
        have hchunk : decodeChunk sha1 z (some type) cache (file ++ parts.flatten) = _ :=
          decodeChunk_compress hx hdata hfile
        split at hchunk
        · rename_i hfit
          rw [decodeLoop_wrote hchunk, decodeLoop_archive hxs ?_ ?_ hinj' hparts]
          · simp only [List.forall_mem_cons, hfit, true_and, List.flatten_cons]
            split <;> rfl
          · exact List.forall_mem_append.mpr ⟨hfits, List.forall_mem_singleton.mpr hfit⟩
          · intro b hb
            by_cases hbx : (sha1 b).val = (sha1 x).val
            · obtain rfl := hinj' b (List.mem_append_left _ hb) x (by simp) (Subtype.ext hbx)
              exact Function.update_self ..
            · rw [Function.update_of_ne hbx]
              rcases List.mem_append.mp hb with hb | hb
              · exact hcache b hb
              · exact absurd (by rw [List.mem_singleton.mp hb]) hbx
        · rename_i hfit
          rw [decodeLoop_exit hchunk, if_neg fun hall => hfit (hall x (List.mem_cons_self ..))]

end Decode

/-! ### Encode and Decode -/

/-- `Encode` completes: it cuts `input` into `chunks` and leaves `file`. The pipeline completes when all
    of its threads have returned. -/
inductive Encoded (sha1 : Bytes → Digest) (z : Zlib) (type : CompressType) (input : Bytes) :
    List Bytes → Bytes → Prop
  | serial {chunks : List Bytes} {file : Bytes} (hchunks : serialChunks input = some chunks)
      (hfile : archiveFile type (serialRecords sha1 z type [] chunks) = some file) :
      Encoded sha1 z type input chunks file
  | pipeline {c : Config} {rows : List (List Bytes)} {ts : List (Thread c)}
      {s : State c Digest (Option Bytes)} {file : Bytes} (hrows : Fragment.fineChunks input = some rows)
      (hs : exec (Pipeline.step (plan rows (Fragment.fineChunks_spec hrows).1) (sha1 ∘ content rows)
        (packed z type ∘ content rows)) (State.new c (plan rows (Fragment.fineChunks_spec hrows).1)) ts = some s)
      (hdone : ∀ t, s.Finished t) (hfile : archiveFile type s.reorder.out = some file) :
      Encoded sha1 z type input rows.flatten file

section Encode
variable {sha1 : Bytes → Digest} {z : Zlib} {type : CompressType} {input file : Bytes} {chunks : List Bytes}

/-- Both encoders cut the input into chunks that make it up again and write the same records for them. -/
theorem Encoded.spec (h : Encoded sha1 z type input chunks file)
    (hinj : ∀ x ∈ chunks, ∀ y ∈ chunks, sha1 x = sha1 y → x = y) :
    chunks.flatten = input ∧ (∀ x ∈ chunks, Sized x) ∧
      archiveFile type (archive sha1 (packed z type) id [] chunks) = some file := by
  cases h with
  | serial hchunks hfile =>
    obtain ⟨hflat, hsized⟩ := Fragment.serialChunks_spec hchunks
    have hrecords : serialRecords sha1 z type [] chunks = archive sha1 (packed z type) id [] chunks :=
      serialRecords_eq sha1 z type (by simp)
    exact ⟨hflat, hsized, hrecords ▸ hfile⟩
  | pipeline hrows hs hdone hfile =>
    rename_i rows ts s
    obtain ⟨hne, hflat, hsized⟩ := Fragment.fineChunks_spec hrows
    have hcontent := file_content rows hne
    refine ⟨hflat, hsized, ?_⟩
    rw [← hcontent] at hinj ⊢
    rw [← pipeline_records ?_ hs (hdone .reorder)]
    · exact hfile
    · intro i hi j hj
      exact hinj _ (List.mem_map_of_mem hi) _ (List.mem_map_of_mem hj)

/-- `Decode` skips the header and reads the records. -/
theorem decode_archiveFile {records : List (Record Digest (Option Bytes))}
    (h : archiveFile type records = some file) : ∃ parts, records.mapM writeRecord = some parts ∧
      decode sha1 z file = decodeLoop sha1 z (some type) (fun _ => none) parts.flatten := by
  obtain ⟨parts, hparts, rfl⟩ := Option.map_eq_some_iff.mp h
  refine ⟨parts, hparts, ?_⟩
  have hcheck : ofLe (toLe 4 checkbit) = checkbit := by
    rw [ofLe_toLe]
    rfl
  unfold decode writeHeader
  rw [List.append_assoc, xread_toLe]
  dsimp only
  rw [hcheck, if_neg (not_not.mpr rfl), xread_append (show [type.code].length = 1 from rfl)]
  dsimp only
  rw [List.head?_cons, Option.bind_some, CompressType.ofCode_code]

/-- The whole decoder on the whole archive. -/
theorem decode_encoded (h : Encoded sha1 z type input chunks file)
    (hinj : ∀ x ∈ chunks, ∀ y ∈ chunks, sha1 x = sha1 y → x = y) :
    decode sha1 z file = if ∀ x ∈ chunks, Fits type x then some input else none := by
  obtain ⟨rfl, hsized, hfile⟩ := h.spec hinj
  obtain ⟨parts, hparts, hdecode⟩ := decode_archiveFile hfile
  rw [hdecode]
  exact decodeLoop_archive hsized (List.forall_mem_nil _) (List.forall_mem_nil _) hinj hparts

/-- CORRECT: when `Encode` completes, by whatever path and interleaving, and SHA-1 has no collision among
    the chunks, then `Decode` completes and writes the input if and only if the archive is not
    compressed or no chunk of the input is longer than the buffer of the decoder. -/
theorem decode_undoes_encode (sha1 : Bytes → Digest) (z : Zlib) (type : CompressType) (input file : Bytes)
    (chunks : List Bytes) (hinj : ∀ x ∈ chunks, ∀ y ∈ chunks, sha1 x = sha1 y → x = y)
    (h : Encoded sha1 z type input chunks file) :
    decode sha1 z file = some input ↔ (type = .gzip → ∀ x ∈ chunks, x.length ≤ uncompressBound) := by
  have hfits : (∀ x ∈ chunks, Fits type x) ↔ (type = .gzip → ∀ x ∈ chunks, x.length ≤ uncompressBound) :=
    ⟨fun h ht x hx => h x hx ht, fun h x hx ht => h ht x hx⟩
  rw [decode_encoded h hinj, ← hfits]
  split
  · rename_i hall
    exact iff_of_true rfl hall
  · rename_i hall
    exact iff_of_false nofun hall

end Encode

/-- A window of zeros: its fingerprint is 0. -/
def zeros : Bytes := List.replicate 32 0

/-- What zlib makes of `zeros`. -/
def zerosGzip : Bytes := [0x78, 0x9c, 0x63, 0x60, 0xc0, 0x0f, 0x00, 0x00, 0x20, 0x00, 0x01]

/-- The SHA-1 sum of `zeros`. -/
def zerosSha1 : Digest :=
  ⟨[0xde, 0x8a, 0x84, 0x7b, 0xff, 0x8c, 0x34, 0x3d, 0x69, 0xb8,
    0x53, 0xa2, 0x15, 0xe6, 0xee, 0x77, 0x5e, 0xf2, 0xef, 0x96], rfl⟩

/-- A zlib that leaves everything but `zeros` as it is. -/
def zerosZlib : Zlib where
  compress x := if x = zeros then zerosGzip else 0 :: x
  uncompress n y :=
    if y = zerosGzip then if zeros.length ≤ n then some zeros else none
    else if y.tail.length ≤ n then some y.tail else none
  uncompress_compress n x := by
    split
    · rename_i hx
      rw [if_pos rfl, hx]
    · rw [if_neg (by simp [zerosGzip]), List.tail_cons]
  compress_ne_nil x := by split <;> simp [zerosGzip]

/-- Two windows of zeros: the second is written as a fingerprint. -/
theorem decode_undoes_encode_zeros :
    let file : Bytes := [0x40, 0xe2, 0x01, 0x00, 0,
      1, 11, 0, 0, 0, 0, 0, 0, 0, 0x78, 0x9c, 0x63, 0x60, 0xc0, 0x0f, 0x00, 0x00, 0x20, 0x00, 0x01,
      0, 20, 0, 0, 0, 0, 0, 0, 0, 0xde, 0x8a, 0x84, 0x7b, 0xff, 0x8c, 0x34, 0x3d, 0x69, 0xb8,
      0x53, 0xa2, 0x15, 0xe6, 0xee, 0x77, 0x5e, 0xf2, 0xef, 0x96]
    Encoded (fun _ => zerosSha1) zerosZlib .gzip (zeros ++ zeros) [zeros, zeros] file ∧
      decode (fun _ => zerosSha1) zerosZlib file = some (zeros ++ zeros) := by
  intro file
  have hchunks : serialChunks (zeros ++ zeros) = some [zeros, zeros] := by
    have hfirst : Fragment.findSerial (zeros ++ zeros) = .split 32 := by decide +kernel
    have hsecond : Fragment.findSerial zeros = .whole := by decide +kernel
    rw [serialChunks, Fragment.readLoop_block (by decide) (by decide), Fragment.splitLoop, hfirst]
    dsimp only
    rw [if_pos (by decide), show (zeros ++ zeros).drop 32 = zeros from rfl,
      Fragment.splitLoop_whole hsecond]
    rfl
  have h : Encoded (fun _ => zerosSha1) zerosZlib .gzip (zeros ++ zeros) [zeros, zeros] file :=
    .serial hchunks (by decide +kernel)
  have hinj : ∀ x ∈ [zeros, zeros], ∀ y ∈ [zeros, zeros], zerosSha1 = zerosSha1 → x = y := by decide
  exact ⟨h, (decode_undoes_encode _ _ _ _ _ _ hinj h).mpr fun _ => by decide⟩

/-- An input without a Rabin boundary is one chunk of the serial encoder. -/
theorem serialChunks_quiet {n : ℕ} (hn : nwindow + n ≤ Fragment.maxbuf) :
    serialChunks (quiet n) = some [quiet n] := by
  have hlen := quiet_length n
  have hint : int32 (quiet n).length = (quiet n).length := by
    refine int32_of_lt ?_
    rw [Fragment.maxbuf] at hn
    omega
  have hsize : toSize (nwindow + n : ℕ) = nwindow + n := by
    have := toSize_of_nonneg (z := (nwindow + n : ℕ)) (by omega) (by rw [Fragment.maxbuf] at hn; omega)
    omega
  have hfind : Fragment.findSerial (quiet n) = .whole := by
    rw [Fragment.findSerial, hint, hlen, rabinseg_quiet, if_neg (by rw [nwindow]; omega),
      if_neg (by rw [hsize]; omega)]
  have hne : quiet n ≠ [] := List.length_pos_iff.mp (by rw [hlen, nwindow]; omega)
  rw [serialChunks, Fragment.readLoop_block hne (by omega), Fragment.splitLoop_whole hfind]
  rfl

/-- Whatever SHA-1 and zlib are: when the serial encoder makes one long chunk of its input, and that
    chunk can be compressed, then the archive cannot be decoded. -/
theorem decode_long_chunk (sha1 : Bytes → Digest) (z : Zlib) {input : Bytes}
    (hchunks : serialChunks input = some [input]) (hlong : uncompressBound < input.length)
    (hroom : (z.compress input).length ≤ input.length + (input.length >>> 9) + 12)
    (hint : (z.compress input).length < 2 ^ 31) :
    ∃ file, Encoded sha1 z .gzip input [input] file ∧ decode sha1 z file = none := by
  have hpacked : packed z .gzip input = some (z.compress input) := if_pos hroom
  obtain ⟨part, hpart⟩ : ∃ part, writeFile typeCompress (z.compress input) = some part := by
    refine ⟨_, if_neg ?_⟩
    rw [int32_of_lt hint]
    omega
  have hrecords : serialRecords sha1 z .gzip [] [input] = [.compress (some (z.compress input))] := by
    rw [serialRecords, if_neg List.not_mem_nil, hpacked, serialRecords]
  have hparts : [Record.compress (some (z.compress input))].mapM writeRecord = some [part] := by
    rw [List.mapM_cons, List.mapM_nil, writeRecord, Option.bind_some, hpart]
    rfl
  have hfile : archiveFile .gzip (serialRecords sha1 z .gzip [] [input]) = some (writeHeader .gzip ++ part) := by
    rw [archiveFile, hrecords, hparts, Option.map_some, List.flatten_singleton]
  have h : Encoded sha1 z .gzip input [input] (writeHeader .gzip ++ part) := .serial hchunks hfile
  have hinj : ∀ x ∈ [input], ∀ y ∈ [input], sha1 x = sha1 y → x = y := by
    intro x hx y hy _
    rw [List.mem_singleton.mp hx, List.mem_singleton.mp hy]
  have hfits : ¬∀ x ∈ [input], Fits .gzip x := by
    intro hall
    exact absurd (hall input (List.mem_singleton_self _) rfl) (not_le.mpr hlong)
  exact ⟨_, h, (decode_encoded h hinj).trans (if_neg hfits)⟩

theorem zerosZlib_compress {x : Bytes} (h : zeros.length < x.length) : zerosZlib.compress x = 0 :: x := by
  refine if_neg ?_
  rintro rfl
  exact lt_irrefl _ h

/-- The input has 10000001 bytes and no boundary: `Encode` completes and `Decode` exits. -/
theorem long_chunk_not_decoded :
    (quiet 9999969).length = uncompressBound + 1 ∧
      ∃ file, Encoded (fun _ => zerosSha1) zerosZlib .gzip (quiet 9999969) [quiet 9999969] file ∧
        decode (fun _ => zerosSha1) zerosZlib file = none := by
  have hlen := quiet_length 9999969
  have hcompress : zerosZlib.compress (quiet 9999969) = 0 :: quiet 9999969 := by
    refine zerosZlib_compress ?_
    rw [hlen]
    decide
  rw [nwindow] at hlen
  refine ⟨by rw [hlen, uncompressBound], decode_long_chunk _ _ (serialChunks_quiet (by decide)) ?_ ?_ ?_⟩
  · rw [hlen, uncompressBound]
    omega
  · rw [hcompress, List.length_cons]
    omega
  · rw [hcompress, List.length_cons, hlen]
    omega

end Turkey.RoundTrip
