import Turkey.Dedup.Archive
import Turkey.Dedup.Hashtable
import Turkey.Schemes.Chains
import Turkey.Schemes.Locks

/-! The hash table under the threads of `Deduplicate`, access by access. `sub_Deduplicate` locks the bucket of its
    digest, walks the chain, and where it does not find the digest it puts an entry from `malloc` to the front. The
    entries of all buckets are in one memory, and threads with digests of other buckets are at work in it meanwhile.
    The table does not expand: with threads `ENABLE_DYNAMIC_EXPANSION` is not defined.

    Whatever the order of the accesses, the encoder does nothing that it does not do when `sub_Deduplicate` is one
    step. -/

namespace Turkey.Hashing
open Turkey.Run Turkey.Chains Turkey.Archive Turkey.Buckets Turkey.Locks
variable {T A ι D κ : Type}

/-! ### The code -/

/-- Where a thread is: what it does next, for its chunk `i`. `e` and `first` are what it holds in its own variables. -/
inductive Pc (A ι : Type) where
  | idle
  | lock (i : ι)
  | head (i : ι)
  | test (i : ι) (e : Option A)
  | value (i : ι) (e : A)
  | next (i : ι) (e : A)
  | miss (i : ι)
  | malloc (i : ι)
  | fill (i : ι) (e : A)
  | link (i : ι) (e : A)
  | setNext (i : ι) (e : A) (first : Option A)
  | publish (i : ι) (e : A)
  | hit (i entry : ι)
  | setRef (i entry : ι)
  | unlock (i : ι) (isDuplicate : Bool)

/-- The memory and the threads. An entry is at an address, with its fields; the key of an entry points to the digest of
    a chunk. `fetched` are the chunks that are not in the queue any more. -/
structure State (T A ι D κ : Type) where
  locks : ℕ → Option T
  table : ℕ → Option A
  allocated : A → Bool
  h : A → BitVec 32
  k : A → ι
  v : A → ι
  next : A → Option A
  chunk : ι → Chunk ι κ
  fetched : ι → Bool
  stage : ι → Stage
  rest : List ι
  out : List (Record D κ)
  aborted : Bool
  exited : Bool
  pc : T → Pc A ι

/-- `malloc` gives an address, or nothing. -/
inductive Action (T A ι : Type) where
  | fetch (t : T) (i : ι)
  | run (t : T) (a : Option A)
  | compress (i : ι)
  | write

/-- `hash_from_key_fn`, the length of the table, and the SHA-1 sums of the chunks. -/
structure Config (ι D : Type) where
  hashfn : D → BitVec 32
  tablelength : ℕ
  digest : ι → D

def Config.hash (c : Config ι D) (i : ι) : BitVec 32 := Buckets.hash (c.hashfn (c.digest i))

/-- The bucket of a chunk. -/
def Config.index (c : Config ι D) (i : ι) : ℕ := indexFor c.tablelength (c.hash i)

section Code
variable [DecidableEq T] [DecidableEq A] [DecidableEq ι] [DecidableEq D] (c : Config ι D) (packed : ι → κ)

def State.goto (s : State T A ι D κ) (t : T) (p : Pc A ι) : State T A ι D κ := { s with pc := Function.update s.pc t p }

/-- One access of `sub_Deduplicate`; `none` when the thread waits, and when what it does is undefined. -/
def run (s : State T A ι D κ) (t : T) (a : Option A) : Option (State T A ι D κ) :=
  match s.pc t with
  | .idle => none
  | .lock i =>
    if c.index i < c.tablelength ∧ s.locks (c.index i) = none then
      some ({ s with locks := Function.update s.locks (c.index i) (some t) }.goto t (.head i))
    else none
  | .head i => some (s.goto t (.test i (s.table (c.index i))))
  | .test i none => some (s.goto t (.miss i))
  | .test i (some e) =>
    if s.allocated e then
      if c.hash i = s.h e ∧ c.digest i = c.digest (s.k e) then some (s.goto t (.value i e))
      else some (s.goto t (.next i e))
    else none
  | .value i e => if s.allocated e then some (s.goto t (.hit i (s.v e))) else none
  | .next i e => if s.allocated e then some (s.goto t (.test i (s.next e))) else none
  | .miss i =>
    some ({ s with chunk := Function.update s.chunk i { s.chunk i with isDuplicate := false } }.goto t (.malloc i))
  | .malloc i =>
    match a with
    | none => some { s with exited := true }
    | some e =>
      if s.allocated e then none
      else some ({ s with allocated := Function.update s.allocated e true }.goto t (.fill i e))
  | .fill i e =>
    if s.allocated e then
      some ({ s with
        h := Function.update s.h e (c.hash i)
        k := Function.update s.k e i
        v := Function.update s.v e i }.goto t (.link i e))
    else none
  | .link i e => some (s.goto t (.setNext i e (s.table (c.index i))))
  | .setNext i e first =>
    if s.allocated e then some ({ s with next := Function.update s.next e first }.goto t (.publish i e)) else none
  | .publish i e =>
    some ({ s with table := Function.update s.table (c.index i) (some e) }.goto t
      (.unlock i false))
  | .hit i entry =>
    some ({ s with chunk := Function.update s.chunk i { s.chunk i with isDuplicate := true } }.goto t (.setRef i entry))
  | .setRef i entry =>
    some ({ s with chunk := Function.update s.chunk i { s.chunk i with compressedDataRef := entry } }.goto t
      (.unlock i true))
  | .unlock i isDuplicate =>
    some ({ s with
      locks := Function.update s.locks (c.index i) none
      stage := Function.update s.stage i (if isDuplicate then .reorder else .compress) }.goto t .idle)

/-- The chunks alone; nobody else asks for the table. -/
def State.chunks (s : State T A ι D κ) : Table ι D κ := ⟨fun _ => none, s.chunk⟩

/-- A thread takes a chunk from its queue, or goes on; the other stages work as before. -/
def step (s : State T A ι D κ) : Action T A ι → Option (State T A ι D κ)
  | .fetch t i =>
    match s.pc t with
    | .idle =>
      if s.aborted = false ∧ s.exited = false ∧ s.stage i = .deduplicate ∧ s.fetched i = false then
        some ({ s with fetched := Function.update s.fetched i true }.goto t (.lock i))
      else none
    | _ => none
  | .run t a => if s.aborted = false ∧ s.exited = false then run c s t a else none
  | .compress i =>
    if s.aborted = false ∧ s.exited = false ∧ s.stage i = .compress then
      match subCompress packed s.chunks i with
      | none => some { s with aborted := true }
      | some table => some { s with chunk := table.chunk, stage := Function.update s.stage i .reorder }
    else none
  | .write =>
    match s.rest with
    | [] => none
    | i :: rest =>
      if s.aborted = false ∧ s.exited = false ∧ s.stage i ≠ .deduplicate then
        (writeChunkToFile c.digest s.chunks i).map fun (record, table) =>
          { s with chunk := table.chunk, rest, out := s.out ++ [record] }
      else none

end Code

/-- The chains are empty and all threads wait for chunks. What memory that is not allocated holds does not matter. -/
def State.new (h : A → BitVec 32) (k v : A → ι) (next : A → Option A) (file : List ι) : State T A ι D κ where
  locks _ := none
  table _ := none
  allocated _ := false
  h := h
  k := k
  v := v
  next := next
  chunk i := ⟨false, .UNCOMPRESSED, i⟩
  fetched _ := false
  stage _ := .deduplicate
  rest := file
  out := []
  aborted := false
  exited := false
  pc _ := .idle

/-! ### Where a thread is -/

namespace Pc

/-- The chunk of a thread. -/
def chunk : Pc A ι → Option ι
  | idle => none
  | lock i | head i | test i _ | value i _ | next i _ | miss i | malloc i | fill i _ | link i _ | setNext i _ _
  | publish i _ | hit i _ | setRef i _ | unlock i _ => some i

/-- The chunk of a thread that has the lock of its bucket. -/
def inside : Pc A ι → Option ι
  | idle | lock _ => none
  | head i | test i _ | value i _ | next i _ | miss i | malloc i | fill i _ | link i _ | setNext i _ _
  | publish i _ | hit i _ | setRef i _ | unlock i _ => some i

/-- The entry that a thread has from `malloc` and nobody else knows. -/
def own : Pc A ι → Option A
  | fill _ e | link _ e | setNext _ e _ | publish _ e => some e
  | _ => none

theorem chunk_of_inside {p : Pc A ι} {i : ι} (h : p.inside = some i) : p.chunk = some i := by
  cases p <;> first | exact h | cases h

end Pc

/-! ### What a thread knows -/

section Relation
variable (c : Config ι D)

/-- The chunk is as it was before `sub_Deduplicate`. -/
def Same (s : State T A ι D κ) (e : Encoder ι D κ) (i : ι) : Prop :=
  e.stage i = .deduplicate ∧ s.chunk i = e.table.chunk i

/-- The flag of the chunk has been set, and nothing else. -/
def Marked (s : State T A ι D κ) (e : Encoder ι D κ) (i : ι) (isDuplicate : Bool) : Prop :=
  e.stage i = .deduplicate ∧ s.chunk i = { e.table.chunk i with isDuplicate := isDuplicate }

/-- None of the entries has the digest of the chunk. -/
def Differ (s : State T A ι D κ) (i : ι) (l : List A) : Prop := ∀ a ∈ l, c.digest (s.k a) ≠ c.digest i

/-- An entry for a chunk. -/
def Filled (s : State T A ι D κ) (i : ι) (a : A) : Prop := s.h a = c.hash i ∧ s.k a = i ∧ s.v a = i

/-- What holds where a thread is. `lists` are the chains, and `e` is the encoder in which `sub_Deduplicate` is one step:
    it takes the step with the last access that anybody notices. -/
def Asserts (s : State T A ι D κ) (lists : ℕ → List A) (e : Encoder ι D κ) : Pc A ι → Prop
  | .idle => True
  | .lock i | .head i => Same s e i
  | .test i p => Same s e i ∧ ∃ front back, lists (c.index i) = front ++ back ∧ p = back.head? ∧ Differ c s i front
  | .value i a => Same s e i ∧ a ∈ lists (c.index i) ∧ c.digest (s.k a) = c.digest i
  | .next i a => Same s e i ∧ ∃ front back, lists (c.index i) = front ++ a :: back ∧ Differ c s i (front ++ [a])
  | .miss i => Same s e i ∧ Differ c s i (lists (c.index i))
  | .malloc i | .fill i _ => Marked s e i false ∧ Differ c s i (lists (c.index i))
  | .link i a => Marked s e i false ∧ Differ c s i (lists (c.index i)) ∧ Filled c s i a
  | .setNext i a first => Marked s e i false ∧ Differ c s i (lists (c.index i)) ∧ Filled c s i a ∧
    first = (lists (c.index i)).head?
  | .publish i a => Marked s e i false ∧ Differ c s i (lists (c.index i)) ∧ Filled c s i a ∧
    s.next a = (lists (c.index i)).head?
  | .hit i k => Same s e i ∧ e.table.cache (c.digest i) = some k
  | .setRef i k => Marked s e i true ∧ e.table.cache (c.digest i) = some k
  | .unlock i isDuplicate => s.chunk i = e.table.chunk i ∧ e.stage i = if isDuplicate then .reorder else .compress

/-- The chains hold an entry for every digest in `cache`, each in its bucket. -/
structure Chained (s : State T A ι D κ) (lists : ℕ → List A) (cache : D → Option ι) : Prop where
  places : Places s.next lists
  heads : ∀ b, s.table b = (lists b).head?
  entry : ∀ b, ∀ a ∈ lists b, s.allocated a = true ∧ Filled c s (s.k a) a ∧ c.index (s.k a) = b
  cache : ∀ d i, cache d = some i ↔ c.digest i = d ∧ ∃ b, ∃ a ∈ lists b, s.k a = i

/-- The threads at their accesses beside the encoder in which `sub_Deduplicate` is one step. -/
structure Rel (s : State T A ι D κ) (lists : ℕ → List A) (e : Encoder ι D κ) : Prop where
  chained : Chained c s lists e.table.cache
  held : Held s.locks fun t => (s.pc t).inside.map c.index
  own : ∀ t a, (s.pc t).own = some a → s.allocated a = true ∧ ¬In lists a ∧ ∀ u, (s.pc u).own = some a → u = t
  chunks : ∀ t i, (s.pc t).chunk = some i →
    s.fetched i = true ∧ s.stage i = .deduplicate ∧ ∀ u, (s.pc u).chunk = some i → u = t
  asserts : ∀ t, Asserts c s lists e (s.pc t)
  others : ∀ i, (∀ t, (s.pc t).chunk ≠ some i) → s.chunk i = e.table.chunk i ∧ e.stage i = s.stage i
  written : s.rest = e.rest ∧ s.out = e.out ∧ s.aborted = e.aborted

end Relation

section Rules
variable {c : Config ι D} {s s' : State T A ι D κ} {lists lists' : ℕ → List A} {e e' : Encoder ι D κ}

theorem Differ.congr {i : ι} {l : List A} (h : Differ c s i l) (hk : ∀ a ∈ l, s'.k a = s.k a) : Differ c s' i l := by
  intro a ha
  rw [hk a ha]
  exact h a ha

/-- What a thread knows stays while others work: at other chunks, in other buckets, and at other entries. -/
theorem Asserts.stay {p : Pc A ι} (h : Asserts c s lists e p)
    (hchunk : ∀ i, p.chunk = some i → e'.stage i = e.stage i ∧
      (e.stage i = .deduplicate → s'.chunk i = s.chunk i ∧ e'.table.chunk i = e.table.chunk i) ∧
        (s.chunk i = e.table.chunk i → s'.chunk i = e'.table.chunk i))
    (hlist : ∀ i, p.inside = some i → lists' (c.index i) = lists (c.index i) ∧
      e'.table.cache (c.digest i) = e.table.cache (c.digest i))
    (hentry : ∀ i a, p.inside = some i → a ∈ lists (c.index i) ∨ p.own = some a →
      s'.h a = s.h a ∧ s'.k a = s.k a ∧ s'.v a = s.v a ∧ s'.next a = s.next a) : Asserts c s' lists' e' p := by
  have hsame : ∀ i, p.chunk = some i → Same s e i → Same s' e' i := by
    rintro i hi ⟨hstage, heq⟩
    obtain ⟨h1, -, h3⟩ := hchunk i hi
    exact ⟨h1.trans hstage, h3 heq⟩
  have hmarked : ∀ i b, p.chunk = some i → Marked s e i b → Marked s' e' i b := by
    rintro i b hi ⟨hstage, heq⟩
    obtain ⟨h1, h2, -⟩ := hchunk i hi
    obtain ⟨hs, he⟩ := h2 hstage
    exact ⟨h1.trans hstage, by rw [hs, he, heq]⟩
  have hdiffer : ∀ i l, p.inside = some i → (∀ a ∈ l, a ∈ lists (c.index i)) → Differ c s i l → Differ c s' i l := by
    intro i l hi hl hd
    exact hd.congr fun a ha => (hentry i a hi (Or.inl (hl a ha))).2.1
  have hfilled : ∀ i a, p.inside = some i → p.own = some a → Filled c s i a → Filled c s' i a := by
    rintro i a hi ha ⟨h1, h2, h3⟩
    obtain ⟨e1, e2, e3, -⟩ := hentry i a hi (Or.inr ha)
    exact ⟨e1.trans h1, e2.trans h2, e3.trans h3⟩
  cases p with
  | idle => trivial
  | lock i => exact hsame i rfl h
  | head i => exact hsame i rfl h
  | test i p =>
    obtain ⟨h1, front, back, hl, hp, hd⟩ := h
    refine ⟨hsame i rfl h1, front, back, (hlist i rfl).1.trans hl, hp, hdiffer i front rfl (fun a ha => ?_) hd⟩
    rw [hl]
    exact List.mem_append_left _ ha
  | value i a =>
    obtain ⟨h1, ha, hd⟩ := h
    refine ⟨hsame i rfl h1, by rwa [(hlist i rfl).1], ?_⟩
    rw [(hentry i a rfl (Or.inl ha)).2.1, hd]
  | next i a =>
    obtain ⟨h1, front, back, hl, hd⟩ := h
    refine ⟨hsame i rfl h1, front, back, (hlist i rfl).1.trans hl, hdiffer i _ rfl (fun x hx => ?_) hd⟩
    rw [hl]
    rcases List.mem_append.1 hx with hx | hx
    · exact List.mem_append_left _ hx
    · rw [List.mem_singleton.1 hx]
      exact List.mem_append_right _ (List.mem_cons_self ..)
  | miss i =>
    obtain ⟨h1, hd⟩ := h
    refine ⟨hsame i rfl h1, ?_⟩
    rw [(hlist i rfl).1]
    exact hdiffer i _ rfl (fun _ ha => ha) hd
  | malloc i =>
    obtain ⟨h1, hd⟩ := h
    refine ⟨hmarked i _ rfl h1, ?_⟩
    rw [(hlist i rfl).1]
    exact hdiffer i _ rfl (fun _ ha => ha) hd
  | fill i a =>
    obtain ⟨h1, hd⟩ := h
    refine ⟨hmarked i _ rfl h1, ?_⟩
    rw [(hlist i rfl).1]
    exact hdiffer i _ rfl (fun _ ha => ha) hd
  | link i a =>
    obtain ⟨h1, hd, hf⟩ := h
    refine ⟨hmarked i _ rfl h1, ?_, hfilled i a rfl rfl hf⟩
    rw [(hlist i rfl).1]
    exact hdiffer i _ rfl (fun _ ha => ha) hd
  | setNext i a first =>
    obtain ⟨h1, hd, hf, hfirst⟩ := h
    refine ⟨hmarked i _ rfl h1, ?_, hfilled i a rfl rfl hf, ?_⟩
    · rw [(hlist i rfl).1]
      exact hdiffer i _ rfl (fun _ ha => ha) hd
    · rw [(hlist i rfl).1, hfirst]
  | publish i a =>
    obtain ⟨h1, hd, hf, hnext⟩ := h
    refine ⟨hmarked i _ rfl h1, ?_, hfilled i a rfl rfl hf, ?_⟩
    · rw [(hlist i rfl).1]
      exact hdiffer i _ rfl (fun _ ha => ha) hd
    · rw [(hlist i rfl).1, (hentry i a rfl (Or.inr rfl)).2.2.2, hnext]
  | hit i k =>
    obtain ⟨h1, hk⟩ := h
    exact ⟨hsame i rfl h1, (hlist i rfl).2.trans hk⟩
  | setRef i k =>
    obtain ⟨h1, hk⟩ := h
    exact ⟨hmarked i _ rfl h1, (hlist i rfl).2.trans hk⟩
  | unlock i isDuplicate =>
    obtain ⟨h1, hstage⟩ := h
    obtain ⟨e1, -, e3⟩ := hchunk i rfl
    exact ⟨e3 h1, e1.trans hstage⟩

/-- Two chunks with one digest are in one bucket. -/
theorem index_congr {i j : ι} (h : c.digest i = c.digest j) : c.index i = c.index j := by
  rw [Config.index, Config.index, Config.hash, Config.hash, h]

/-- The entry that a thread finds is the one of its digest. -/
theorem Chained.found {cache : D → Option ι} (h : Chained c s lists cache) {i : ι} {b : ℕ} {a : A} (ha : a ∈ lists b)
    (hd : c.digest (s.k a) = c.digest i) : cache (c.digest i) = some (s.k a) :=
  (h.cache _ _).2 ⟨hd, b, a, ha, rfl⟩

/-- At the end of the chain nobody has the digest. -/
theorem Chained.missed {cache : D → Option ι} (h : Chained c s lists cache) {i : ι}
    (hd : Differ c s i (lists (c.index i))) : cache (c.digest i) = none := by
  cases hc : cache (c.digest i) with
  | none => rfl
  | some j =>
    obtain ⟨hdigest, b, a, ha, rfl⟩ := (h.cache _ _).1 hc
    have hb := (h.entry b a ha).2.2
    rw [index_congr hdigest] at hb
    subst hb
    exact absurd hdigest (hd a ha)

end Rules

end Turkey.Hashing
