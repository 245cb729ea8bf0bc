import Mathlib.Logic.Function.Basic
import Turkey.Schemes.Run

/-! What the threaded encoder writes. The chunks live in one table that three stages share:
    `sub_Deduplicate` decides under the lock of a hash bucket whether a chunk is the original of its
    digest or a duplicate, `sub_Compress` fills in the compressed data of an original, and
    `write_chunk_to_file` writes the data through whichever chunk of that digest comes first in the
    file, and fingerprints afterwards. Which chunk is the original is decided by the order of hashing,
    which record carries the data by the order of the file. Both versions of the encoder
    (`pthread/encoder.c` and `turkey/encoder.cpp`) have the same three functions.

    `digest` is the SHA-1 sum of a chunk and `packed` what compression makes of its data. -/

namespace Turkey.Archive
open Turkey.Run
variable {ι D κ : Type*}

/-- `chunk_state_t`, with the compressed data where the chunk has it. -/
inductive ChunkState (κ : Type*) where
  | UNCOMPRESSED
  | COMPRESSED (data : κ)
  | FLUSHED
  deriving DecidableEq

/-- The header of a `chunk_t` and the reference of a duplicate to its original. -/
structure Chunk (ι κ : Type*) where
  isDuplicate : Bool
  state : ChunkState κ
  compressedDataRef : ι

/-- The chunks and the hash table `cache` of originals. -/
structure Table (ι D κ : Type*) where
  cache : D → Option ι
  chunk : ι → Chunk ι κ

/-- One record of the archive: `TYPE_COMPRESS` with data or `TYPE_FINGERPRINT` with a SHA-1 sum. -/
inductive Record (D κ : Type*) where
  | compress (data : κ)
  | fingerprint (sha1 : D)
  deriving DecidableEq

section Operations
variable [DecidableEq ι] [DecidableEq D] (digest : ι → D) (packed : ι → κ)

/-- Whether the chunk is a duplicate, and the table afterwards. -/
def subDeduplicate (t : Table ι D κ) (i : ι) : Bool × Table ι D κ :=
  match t.cache (digest i) with
  | none => (false, {
      cache := Function.update t.cache (digest i) (some i)
      chunk := Function.update t.chunk i { t.chunk i with isDuplicate := false } })
  | some entry => (true, { t with
      chunk := Function.update t.chunk i
        { t.chunk i with isDuplicate := true, compressedDataRef := entry } })

/-- `none` when the assertion that the state is `CHUNK_STATE_UNCOMPRESSED` fails. -/
def subCompress (t : Table ι D κ) (i : ι) : Option (Table ι D κ) :=
  match (t.chunk i).state with
  | .UNCOMPRESSED => some { t with
      chunk := Function.update t.chunk i { t.chunk i with state := .COMPRESSED (packed i) } }
  | _ => none

/-- The chunk whose data `write_chunk_to_file` looks at. -/
def Table.original (t : Table ι D κ) (i : ι) : ι :=
  if (t.chunk i).isDuplicate then (t.chunk i).compressedDataRef else i

/-- The record, and the table afterwards; `none` while the function waits for the compressed data. -/
def writeChunkToFile (t : Table ι D κ) (i : ι) : Option (Record D κ × Table ι D κ) :=
  match (t.chunk (t.original i)).state with
  | .UNCOMPRESSED => none
  | .COMPRESSED data => some (.compress data, { t with
      chunk := Function.update t.chunk (t.original i)
        { t.chunk (t.original i) with state := .FLUSHED } })
  | .FLUSHED => some (.fingerprint (digest (t.original i)), t)

/-- No chunk is known yet. -/
def Table.new : Table ι D κ where
  cache _ := none
  chunk i := ⟨false, .UNCOMPRESSED, i⟩

/-! ### The three stages -/

/-- Which stage has a chunk: it has not reached `sub_Deduplicate` yet, it is an original on its way to
    `sub_Compress`, or it is on its way to `write_chunk_to_file`. -/
inductive Stage where
  | deduplicate
  | compress
  | reorder
  deriving DecidableEq

/-- `rest` are the chunks still to be written, in file order; `aborted` is set when an assertion has
    failed. -/
structure Encoder (ι D κ : Type*) where
  table : Table ι D κ
  stage : ι → Stage
  rest : List ι
  out : List (Record D κ)
  aborted : Bool

inductive Event (ι : Type*) where
  | deduplicate (i : ι)
  | compress (i : ι)
  | write
  deriving DecidableEq

def step (s : Encoder ι D κ) : Event ι → Option (Encoder ι D κ)
  | .deduplicate i =>
    if s.aborted = false ∧ s.stage i = .deduplicate then
      let (isDuplicate, table) := subDeduplicate digest s.table i
      let stage := if isDuplicate then Stage.reorder else .compress
      some { s with table, stage := Function.update s.stage i stage }
    else none
  | .compress i =>
    if s.aborted = false ∧ s.stage i = .compress then
      match subCompress packed s.table i with
      | none => some { s with aborted := true }
      | some table => some { s with table, stage := Function.update s.stage i .reorder }
    else none
  | .write =>
    match s.rest with
    | [] => none
    | i :: rest =>
      -- the chunk has to come from `Deduplicate` or `Compress`
      if s.aborted = false ∧ s.stage i ≠ .deduplicate then
        (writeChunkToFile digest s.table i).map fun (record, table) =>
          { s with table, rest, out := s.out ++ [record] }
      else none

def Encoder.new (file : List ι) : Encoder ι D κ where
  table := Table.new
  stage _ := .deduplicate
  rest := file
  out := []
  aborted := false

/-! ### The archive as it should be -/

/-- The record for a chunk behind the chunks `seen`: the data if none of them has the digest. -/
def recordAt (orig : ι → ι) (seen : List ι) (i : ι) : Record D κ :=
  if ∃ j ∈ seen, digest j = digest i then .fingerprint (digest i) else .compress (packed (orig i))

/-- The records for a list of chunks that comes behind `seen`. -/
def archive (orig : ι → ι) : List ι → List ι → List (Record D κ)
  | _, [] => []
  | seen, i :: is => recordAt digest packed orig seen i :: archive orig (seen ++ [i]) is

omit [DecidableEq ι] in
theorem archive_concat (orig : ι → ι) (i : ι) : ∀ seen is, archive digest packed orig seen (is ++ [i]) =
    archive digest packed orig seen is ++ [recordAt digest packed orig (seen ++ is) i]
  | seen, [] => by simp [archive]
  | seen, j :: is => by
      rw [List.cons_append, archive, archive, archive_concat orig i (seen ++ [j]) is, List.append_assoc]
      rfl

omit [DecidableEq ι] in
theorem archive_congr {orig orig' : ι → ι} : ∀ {seen is : List ι}, (∀ i ∈ is, orig i = orig' i) →
    archive digest packed orig seen is = archive digest packed orig' seen is
  | _, [], _ => rfl
  | seen, i :: is, h => by
      rw [archive, archive, recordAt, recordAt, h i (List.mem_cons_self ..),
        archive_congr fun j hj => h j (List.mem_cons_of_mem _ hj)]

omit [DecidableEq ι] in
/-- When digest and data of a chunk come from its content, so do the records. -/
theorem archive_map {β : Type*} (content : ι → β) (f : β → D) (g : β → κ) {orig : ι → ι} :
    ∀ {seen is : List ι}, (∀ i ∈ is, content (orig i) = content i) →
      archive (f ∘ content) (g ∘ content) orig seen is = archive f g id (seen.map content) (is.map content)
  | _, [], _ => rfl
  | seen, i :: is, h => by
      rw [archive, archive_map content f g fun j hj => h j (List.mem_cons_of_mem _ hj), List.map_cons, archive,
        List.map_append, recordAt, recordAt]
      simp [h i (List.mem_cons_self ..)]

end Operations

/-! ### What a step can do -/

section Steps
variable [DecidableEq ι] [DecidableEq D] {digest : ι → D} {packed : ι → κ}

theorem deduplicate_cases {s s' : Encoder ι D κ} {i : ι}
    (h : step digest packed s (.deduplicate i) = some s') :
    s.aborted = false ∧ s.stage i = .deduplicate ∧
    ((s.table.cache (digest i) = none ∧ s' = { s with
        table := ⟨Function.update s.table.cache (digest i) (some i),
          Function.update s.table.chunk i { s.table.chunk i with isDuplicate := false }⟩
        stage := Function.update s.stage i .compress }) ∨
      ∃ k, s.table.cache (digest i) = some k ∧ s' = { s with
        table := ⟨s.table.cache, Function.update s.table.chunk i
          { s.table.chunk i with isDuplicate := true, compressedDataRef := k }⟩
        stage := Function.update s.stage i .reorder }) := by
  simp only [step] at h
  split at h
  · rename_i hs
    refine ⟨hs.1, hs.2, ?_⟩
    unfold subDeduplicate at h
    cases hc : s.table.cache (digest i) with
    | none =>
      simp only [hc, Option.some.injEq] at h
      exact .inl ⟨rfl, h.symm⟩
    | some k =>
      simp only [hc, Option.some.injEq] at h
      exact .inr ⟨k, rfl, h.symm⟩
  · cases h

theorem compress_cases {s s' : Encoder ι D κ} {i : ι}
    (h : step digest packed s (.compress i) = some s') :
    s.aborted = false ∧ s.stage i = .compress ∧
    (((s.table.chunk i).state = .UNCOMPRESSED ∧ s' = { s with
        table := ⟨s.table.cache, Function.update s.table.chunk i
          { s.table.chunk i with state := .COMPRESSED (packed i) }⟩
        stage := Function.update s.stage i .reorder }) ∨
      ((s.table.chunk i).state ≠ .UNCOMPRESSED ∧ s' = { s with aborted := true })) := by
  simp only [step] at h
  split at h
  · rename_i hs
    refine ⟨hs.1, hs.2, ?_⟩
    unfold subCompress at h
    cases hc : (s.table.chunk i).state with
    | UNCOMPRESSED =>
      simp only [hc, Option.some.injEq] at h
      exact .inl ⟨rfl, h.symm⟩
    | COMPRESSED data =>
      simp only [hc, Option.some.injEq] at h
      exact .inr ⟨by simp, h.symm⟩
    | FLUSHED =>
      simp only [hc, Option.some.injEq] at h
      exact .inr ⟨by simp, h.symm⟩
  · cases h

theorem write_cases {s s' : Encoder ι D κ} (h : step digest packed s .write = some s') :
    ∃ i rest, s.rest = i :: rest ∧ s.aborted = false ∧ s.stage i ≠ .deduplicate ∧
    ((∃ data, (s.table.chunk (s.table.original i)).state = .COMPRESSED data ∧ s' = { s with
        table := ⟨s.table.cache, Function.update s.table.chunk (s.table.original i)
          { s.table.chunk (s.table.original i) with state := .FLUSHED }⟩
        rest := rest
        out := s.out ++ [.compress data] }) ∨
      ((s.table.chunk (s.table.original i)).state = .FLUSHED ∧ s' = { s with
        rest := rest
        out := s.out ++ [.fingerprint (digest (s.table.original i))] })) := by
  simp only [step] at h
  cases hr : s.rest with
  | nil => simp [hr] at h
  | cons i rest =>
    simp only [hr] at h
    split at h
    · rename_i hs
      refine ⟨i, rest, rfl, hs.1, hs.2, ?_⟩
      unfold writeChunkToFile at h
      cases hc : (s.table.chunk (s.table.original i)).state with
      | UNCOMPRESSED => simp [hc] at h
      | COMPRESSED data =>
        simp only [hc, Option.map_some, Option.some.injEq] at h
        exact .inl ⟨data, rfl, h.symm⟩
      | FLUSHED =>
        simp only [hc, Option.map_some, Option.some.injEq] at h
        exact .inr ⟨rfl, h.symm⟩
    · cases h

/-! ### The invariant -/

/-- What holds once the chunks `done` have been written: an entry of the cache is an original, a chunk
    that has been hashed leads to the entry of its digest, an original holds its own data, its data
    has left exactly when some chunk of its digest has been written, and the archive is as it should
    be. -/
structure Sound (digest : ι → D) (packed : ι → κ) (done : List ι) (s : Encoder ι D κ) : Prop where
  cached : ∀ d k, s.table.cache d = some k →
    digest k = d ∧ s.stage k ≠ .deduplicate ∧ (s.table.chunk k).isDuplicate = false
  known : ∀ i, s.stage i ≠ .deduplicate → s.table.cache (digest i) = some (s.table.original i)
  raw : ∀ i, s.stage i ≠ .reorder → (s.table.chunk i).state = .UNCOMPRESSED
  held : ∀ i data, (s.table.chunk i).state = .COMPRESSED data → data = packed i
  flushed : ∀ d k, s.table.cache d = some k →
    ((s.table.chunk k).state = .FLUSHED ↔ ∃ j ∈ done, digest j = d)
  hashed : ∀ i ∈ done, s.stage i ≠ .deduplicate
  out : s.out = archive digest packed s.table.original [] done
  running : s.aborted = false

omit [DecidableEq ι] in
theorem sound_new (file : List ι) : Sound digest packed [] (Encoder.new file) where
  cached _ _ h := by cases h
  known _ h := absurd rfl h
  raw _ _ := rfl
  held _ _ h := by cases h
  flushed _ _ h := by cases h
  hashed _ h := by cases h
  out := rfl
  running := rfl

omit [DecidableEq D] in
/-- The original of a chunk depends on the duplicate flag and the reference only. -/
theorem original_update_state (t : Table ι D κ) (k : ι) (state : ChunkState κ) :
    Table.original ⟨t.cache, Function.update t.chunk k { t.chunk k with state := state }⟩ =
      t.original := by
  funext i
  by_cases hik : i = k
  · subst hik; simp [Table.original]
  · simp [Table.original, Function.update_of_ne hik]

omit [DecidableEq D] in
theorem original_update_of_ne (t : Table ι D κ) (cache : D → Option ι) {i j : ι} (c : Chunk ι κ)
    (hij : i ≠ j) : Table.original ⟨cache, Function.update t.chunk j c⟩ i = t.original i := by
  simp [Table.original, Function.update_of_ne hij]

/-- A chunk has been hashed, whatever the cache is now: this changes nothing for the chunks that were before. -/
theorem Sound.hash {done : List ι} {s : Encoder ι D κ} {i : ι} (hI : Sound digest packed done s)
    (hst : s.stage i = .deduplicate) {cache : D → Option ι} {c : Chunk ι κ} {stage : Stage}
    (hraw : c.state = .UNCOMPRESSED)
    (cached : ∀ d k, cache d = some k → digest k = d ∧ Function.update s.stage i stage k ≠ .deduplicate ∧
      (Function.update s.table.chunk i c k).isDuplicate = false)
    (known : ∀ j, Function.update s.stage i stage j ≠ .deduplicate →
      cache (digest j) = some (Table.original ⟨cache, Function.update s.table.chunk i c⟩ j))
    (flushed : ∀ d k, cache d = some k →
      ((Function.update s.table.chunk i c k).state = .FLUSHED ↔ ∃ j ∈ done, digest j = d)) :
    Sound digest packed done { s with
      table := ⟨cache, Function.update s.table.chunk i c⟩
      stage := Function.update s.stage i stage } := by
  have hdone : ∀ j ∈ done, j ≠ i := fun j hj he => hI.hashed j hj (he ▸ hst)
  refine ⟨cached, known, fun j hj => ?_, fun j data hj => ?_, flushed, fun j hj => ?_, ?_, hI.running⟩
  · by_cases hji : j = i
    · subst hji
      simpa using hraw
    · simp only [Function.update_of_ne hji] at hj ⊢
      exact hI.raw j hj
  · by_cases hji : j = i
    · subst hji
      simp [hraw] at hj
    · simp only [Function.update_of_ne hji] at hj
      exact hI.held j data hj
  · simp only [Function.update_of_ne (hdone j hj)]
    exact hI.hashed j hj
  · exact hI.out.trans (archive_congr digest packed fun j hj =>
      (original_update_of_ne _ _ _ (hdone j hj)).symm)

theorem sound_deduplicate {done : List ι} {s s' : Encoder ι D κ} {i : ι}
    (hI : Sound digest packed done s) (h : step digest packed s (.deduplicate i) = some s') :
    Sound digest packed done s' := by
  obtain ⟨-, hst, hcase⟩ := deduplicate_cases h
  have hne : ∀ {k}, s.stage k ≠ .deduplicate → k ≠ i := fun hk he => hk (he ▸ hst)
  have hraw : (s.table.chunk i).state = .UNCOMPRESSED := hI.raw i (by simp [hst])
  rcases hcase with ⟨hmiss, rfl⟩ | ⟨k, hhit, rfl⟩
  · refine hI.hash hst hraw (fun d k hk => ?_) (fun j hj => ?_) fun d k hk => ?_
    · by_cases hd : d = digest i
      · subst hd
        simp only [Function.update_self, Option.some.injEq] at hk
        subst hk
        simp
      · simp only [Function.update_of_ne hd] at hk
        obtain ⟨h1, h2, h3⟩ := hI.cached d k hk
        simp only [Function.update_of_ne (hne h2)]
        exact ⟨h1, h2, h3⟩
    · by_cases hji : j = i
      · subst hji
        simp [Table.original]
      · simp only [Function.update_of_ne hji] at hj
        have hk := hI.known j hj
        have hd : digest j ≠ digest i := fun he => by rw [he, hmiss] at hk; cases hk
        simp only [Function.update_of_ne hd, hk, original_update_of_ne _ _ _ hji]
    · by_cases hd : d = digest i
      · -- the digest is new: neither flushed nor written
        subst hd
        simp only [Function.update_self, Option.some.injEq] at hk
        subst hk
        simp only [Function.update_self, hraw, reduceCtorEq, false_iff, not_exists, not_and]
        intro j hj he
        have := hI.known j (hI.hashed j hj)
        rw [he, hmiss] at this
        cases this
      · simp only [Function.update_of_ne hd] at hk
        simp only [Function.update_of_ne (hne (hI.cached d k hk).2.1)]
        exact hI.flushed d k hk
  · refine hI.hash hst hraw (fun d k' hk => ?_) (fun j hj => ?_) fun d k' hk => ?_
    · obtain ⟨h1, h2, h3⟩ := hI.cached d k' hk
      simp only [Function.update_of_ne (hne h2)]
      exact ⟨h1, h2, h3⟩
    · by_cases hji : j = i
      · subst hji
        simpa [Table.original] using hhit
      · simp only [Function.update_of_ne hji] at hj
        simp only [hI.known j hj, original_update_of_ne _ _ _ hji]
    · simp only [Function.update_of_ne (hne (hI.cached d k' hk).2.1)]
      exact hI.flushed d k' hk

theorem sound_compress {done : List ι} {s s' : Encoder ι D κ} {i : ι}
    (hI : Sound digest packed done s) (h : step digest packed s (.compress i) = some s') :
    Sound digest packed done s' := by
  obtain ⟨-, hst, hcase⟩ := compress_cases h
  have hraw : (s.table.chunk i).state = .UNCOMPRESSED := hI.raw i (by simp [hst])
  obtain ⟨-, rfl⟩ | ⟨hne, -⟩ := hcase
  · refine ⟨fun d k hk => ?_, fun j hj => ?_, fun j hj => ?_, fun j data hj => ?_, fun d k hk => ?_,
      fun j hj => ?_, ?_, hI.running⟩
    · obtain ⟨h1, h2, h3⟩ := hI.cached d k hk
      by_cases hki : k = i
      · subst hki; exact ⟨h1, by simp, by simpa using h3⟩
      · simp only [Function.update_of_ne hki]
        exact ⟨h1, h2, h3⟩
    · rw [original_update_state]
      by_cases hji : j = i
      · subst hji; exact hI.known j (by simp [hst])
      · simp only [Function.update_of_ne hji] at hj
        exact hI.known j hj
    · by_cases hji : j = i
      · subst hji; simp at hj
      · simp only [Function.update_of_ne hji] at hj ⊢
        exact hI.raw j hj
    · by_cases hji : j = i
      · subst hji
        simp only [Function.update_self, ChunkState.COMPRESSED.injEq] at hj
        exact hj.symm
      · simp only [Function.update_of_ne hji] at hj
        exact hI.held j data hj
    · by_cases hki : k = i
      · subst hki
        rw [← hI.flushed d k hk]
        simp [hraw]
      · simp only [Function.update_of_ne hki]
        exact hI.flushed d k hk
    · by_cases hji : j = i
      · subst hji; simp
      · simp only [Function.update_of_ne hji]
        exact hI.hashed j hj
    · simpa only [original_update_state] using hI.out
  · exact absurd hraw hne

theorem sound_write {done : List ι} {s s' : Encoder ι D κ} {i : ι} {rest : List ι}
    (hI : Sound digest packed done s) (hr : s.rest = i :: rest)
    (h : step digest packed s .write = some s') :
    s'.rest = rest ∧ Sound digest packed (done ++ [i]) s' := by
  obtain ⟨i', rest', hr', -, hst, hcase⟩ := write_cases h
  rw [hr] at hr'
  obtain ⟨rfl, rfl⟩ := List.cons.inj hr'
  have hcache := hI.known i hst
  obtain ⟨hdig, -, -⟩ := hI.cached _ _ hcache
  have hhashed : ∀ j ∈ done ++ [i], s.stage j ≠ .deduplicate := by
    intro j hj
    rcases List.mem_append.mp hj with hj | hj
    · exact hI.hashed j hj
    · exact List.mem_singleton.mp hj ▸ hst
  have hsplit : ∀ d, (∃ j ∈ done ++ [i], digest j = d) ↔ (∃ j ∈ done, digest j = d) ∨ digest i = d := by
    intro d
    simp [or_and_right, exists_or]
  rcases hcase with ⟨data, hdata, rfl⟩ | ⟨hflush, rfl⟩
  · -- the first chunk of its digest: the data of the original goes out
    have hfirst : ¬∃ j ∈ done, digest j = digest i := by
      rw [← hI.flushed _ _ hcache, hdata]; simp
    refine ⟨rfl, fun d k hk => ?_, fun j hj => ?_, fun j hj => ?_, fun j data' hj => ?_,
      fun d k hk => ?_, hhashed, ?_, hI.running⟩
    · obtain ⟨h1, h2, h3⟩ := hI.cached d k hk
      refine ⟨h1, h2, ?_⟩
      by_cases hki : k = s.table.original i
      · subst hki; simpa using h3
      · simpa only [Function.update_of_ne hki] using h3
    · simpa only [original_update_state] using hI.known j hj
    · by_cases hjk : j = s.table.original i
      · subst hjk
        have := hI.raw _ hj
        rw [hdata] at this
        cases this
      · simpa only [Function.update_of_ne hjk] using hI.raw j hj
    · by_cases hjk : j = s.table.original i
      · subst hjk; simp at hj
      · simp only [Function.update_of_ne hjk] at hj
        exact hI.held j data' hj
    · rw [hsplit]
      by_cases hki : k = s.table.original i
      · subst hki
        simp only [Function.update_self, true_iff]
        exact .inr (hdig.symm.trans (hI.cached _ _ hk).1)
      · have hd : digest i ≠ d := fun he => hki (by
          rw [he, hk, Option.some.injEq] at hcache; exact hcache)
        simp only [Function.update_of_ne hki, hd, or_false]
        exact hI.flushed d k hk
    · simp only [original_update_state]
      rw [archive_concat, List.nil_append, ← hI.out, recordAt, if_neg hfirst,
        hI.held _ _ hdata]
  · -- the data has been written before
    have hseen : ∃ j ∈ done, digest j = digest i := (hI.flushed _ _ hcache).mp hflush
    refine ⟨rfl, hI.cached, hI.known, hI.raw, hI.held, fun d k hk => ?_, hhashed, ?_, hI.running⟩
    · rw [hI.flushed d k hk, hsplit]
      refine ⟨.inl, fun h => h.elim id ?_⟩
      rintro rfl
      exact hseen
    · rw [archive_concat, List.nil_append, ← hI.out, recordAt, if_pos hseen, hdig]

/-- An original that is on its way to `write_chunk_to_file` has been compressed. -/
def Ready (s : Encoder ι D κ) : Prop :=
  ∀ i, s.stage i = .reorder → (s.table.chunk i).isDuplicate = false →
    (s.table.chunk i).state ≠ .UNCOMPRESSED

theorem ready_step {s s' : Encoder ι D κ} {e : Event ι} (hI : Ready s)
    (h : step digest packed s e = some s') : Ready s' := by
  intro j hj hdup
  cases e with
  | deduplicate i =>
    obtain ⟨-, -, ⟨-, rfl⟩ | ⟨k, -, rfl⟩⟩ := deduplicate_cases h
    · by_cases hji : j = i
      · subst hji; simp at hj
      · simp only [Function.update_of_ne hji] at hj hdup ⊢
        exact hI j hj hdup
    · by_cases hji : j = i
      · subst hji; simp at hdup
      · simp only [Function.update_of_ne hji] at hj hdup ⊢
        exact hI j hj hdup
  | compress i =>
    obtain ⟨-, -, ⟨-, rfl⟩ | ⟨-, rfl⟩⟩ := compress_cases h
    · by_cases hji : j = i
      · subst hji; simp
      · simp only [Function.update_of_ne hji] at hj hdup ⊢
        exact hI j hj hdup
    · exact hI j hj hdup
  | write =>
    obtain ⟨i, rest, -, -, -, ⟨data, -, rfl⟩ | ⟨-, rfl⟩⟩ := write_cases h
    · by_cases hji : j = s.table.original i
      · subst hji; simp
      · simp only [Function.update_of_ne hji] at hdup ⊢
        exact hI j hj hdup
    · exact hI j hj hdup

/-- Some first part of the file has been written, soundly. -/
def Written (digest : ι → D) (packed : ι → κ) (file : List ι) (s : Encoder ι D κ) : Prop :=
  ∃ done, file = done ++ s.rest ∧ Sound digest packed done s

theorem written_step {file : List ι} {s s' : Encoder ι D κ} {e : Event ι}
    (hI : Written digest packed file s) (h : step digest packed s e = some s') :
    Written digest packed file s' := by
  obtain ⟨done, hfile, hI⟩ := hI
  cases e with
  | deduplicate i =>
    have hrest : s'.rest = s.rest := by
      obtain ⟨-, -, ⟨-, rfl⟩ | ⟨k, -, rfl⟩⟩ := deduplicate_cases h <;> rfl
    exact ⟨done, hrest ▸ hfile, sound_deduplicate hI h⟩
  | compress i =>
    have hrest : s'.rest = s.rest := by
      obtain ⟨-, -, ⟨-, rfl⟩ | ⟨-, rfl⟩⟩ := compress_cases h <;> rfl
    exact ⟨done, hrest ▸ hfile, sound_compress hI h⟩
  | write =>
    obtain ⟨i, rest, hr, -⟩ := write_cases h
    obtain ⟨hrest, hsound⟩ := sound_write hI hr h
    exact ⟨done ++ [i], by rw [hfile, hr, hrest, List.append_assoc]; rfl, hsound⟩

/-- CORRECT: whatever the order of hashing, compressing and writing, no assertion fails and the archive
    of the part of the file written so far is the one it should be: the record of a chunk is the data
    of a chunk with its digest when no chunk before it has that digest, and the fingerprint of its
    digest otherwise. -/
theorem archive_self_contained (digest : ι → D) (packed : ι → κ) (file : List ι) (es : List (Event ι))
    (s : Encoder ι D κ) (hs : exec (step digest packed) (Encoder.new file) es = some s) :
    ∃ (done : List ι) (orig : ι → ι), file = done ++ s.rest ∧
      (∀ i ∈ done, digest (orig i) = digest i) ∧
      (∀ i ∈ done, ∀ j ∈ done, digest i = digest j → orig i = orig j) ∧
      s.out = archive digest packed orig [] done ∧ s.aborted = false := by
  obtain ⟨done, hfile, hI⟩ := exec_inv (I := Written digest packed file)
    (fun _ _ _ hI h => written_step hI h) ⟨[], rfl, sound_new file⟩ hs
  refine ⟨done, s.table.original, hfile, fun i hi => ?_, fun i hi j hj hij => ?_, hI.out, hI.running⟩
  · exact (hI.cached _ _ (hI.known i (hI.hashed i hi))).1
  · have hki := hI.known i (hI.hashed i hi)
    rw [hij, hI.known j (hI.hashed j hj), Option.some.injEq] at hki
    exact hki.symm

/-- The first chunk of the file is hashed after the second, which has the same data, and so becomes its
    duplicate: the data of the second goes out in the first record. -/
theorem archive_self_contained_inverted :
    let digest : ℕ → ℕ := fun _ => 7
    let packed : ℕ → ℕ := fun i => 100 + i
    let es : List (Event ℕ) := [.deduplicate 1, .deduplicate 0, .compress 1, .write, .write]
    ∃ s, exec (step digest packed) (Encoder.new [0, 1]) es = some s ∧ s.rest = [] ∧
      s.out = [.compress 101, .fingerprint 7] ∧
      ∃ (done : List ℕ) (orig : ℕ → ℕ), [0, 1] = done ++ s.rest ∧
        (∀ i ∈ done, digest (orig i) = digest i) ∧
        (∀ i ∈ done, ∀ j ∈ done, digest i = digest j → orig i = orig j) ∧
        s.out = archive digest packed orig [] done ∧ s.aborted = false := by
  intro digest packed es
  refine ⟨_, rfl, rfl, rfl, ?_⟩
  exact archive_self_contained digest packed [0, 1] es _ rfl

end Steps

end Turkey.Archive
