import Turkey.Dedup.Accesses

/-! Runs of the encoder at the grain of single accesses to the hash table. They are runs of the encoder in which
    `sub_Deduplicate` is one step, so the archive is the same, and a thread that has a bucket needs nobody else to give
    it back. -/

namespace Turkey.Hashing
open Turkey.Run Turkey.Chains Turkey.Archive Turkey.Buckets Turkey.Locks
variable {T A ι D κ : Type} [DecidableEq T] [DecidableEq A] [DecidableEq ι] [DecidableEq D]

section Stages
variable {c : Config ι D} {packed : ι → κ} {s s' : State T A ι D κ} {lists : ℕ → List A} {e : Encoder ι D κ}

omit [DecidableEq T] [DecidableEq A] [DecidableEq ι] [DecidableEq D] in
/-- A chunk that no thread has. -/
theorem Rel.unheld (h : Rel c s lists e) {i : ι} (hstage : s.stage i ≠ .deduplicate) (t : T) :
    (s.pc t).chunk ≠ some i :=
  fun ht => hstage (h.chunks t i ht).2.1

omit [DecidableEq T] [DecidableEq A] [DecidableEq ι] [DecidableEq D] in
/-- The chunks that have been hashed are the same in both. -/
theorem Rel.settled (h : Rel c s lists e) {i : ι} (hstage : e.stage i ≠ .deduplicate) :
    s.chunk i = e.table.chunk i := by
  by_cases hheld : ∃ t, (s.pc t).chunk = some i
  · obtain ⟨t, ht⟩ := hheld
    have hassert := h.asserts t
    cases hpc : s.pc t <;> rw [hpc] at hassert ht <;> first
      | (cases ht; done)
      | (obtain rfl := Option.some.inj ht; exact hassert.1)
      | (obtain rfl := Option.some.inj ht; exact absurd hassert.1 hstage)
      | (obtain rfl := Option.some.inj ht; exact absurd hassert.1.1 hstage)
  · exact (h.others i fun t ht => hheld ⟨t, ht⟩).1

omit [DecidableEq T] [DecidableEq A] [DecidableEq D] in
/-- The stages behind `Deduplicate` work at chunks that have been hashed. -/
theorem Rel.outer (h : Rel c s lists e) {k : ι} (hk : e.stage k ≠ .deduplicate) (y : Chunk ι κ)
    (stage stage' : ι → Stage)
    (hheld : ∀ j t, (s.pc t).chunk = some j → stage j = s.stage j ∧ stage' j = e.stage j)
    (hother : ∀ j, (∀ t, (s.pc t).chunk ≠ some j) → stage' j = stage j) (rest : List ι) (out : List (Record D κ))
    (aborted : Bool) :
    Rel c { s with chunk := Function.update s.chunk k y, stage, rest, out, aborted } lists
      ⟨⟨e.table.cache, Function.update e.table.chunk k y⟩, stage', rest, out, aborted⟩ := by
  have hupdate : ∀ j, s.chunk j = e.table.chunk j →
      Function.update s.chunk k y j = Function.update e.table.chunk k y j := by
    intro j hj
    by_cases hjk : j = k
    · rw [hjk, Function.update_self, Function.update_self]
    · rw [Function.update_of_ne hjk, Function.update_of_ne hjk, hj]
  refine ⟨{ h.chained with }, h.held, h.own, fun t j hj => ?_, fun t => ?_, fun j hj => ?_, rfl, rfl, rfl⟩
  · obtain ⟨h1, h2, h3⟩ := h.chunks t j hj
    exact ⟨h1, (hheld j t hj).1.trans h2, h3⟩
  · refine (h.asserts t).stay (fun j hj => ⟨(hheld j t hj).2, fun hstage => ?_, hupdate j⟩) (fun _ _ => ⟨rfl, rfl⟩)
      fun _ _ _ _ => ⟨rfl, rfl, rfl, rfl⟩
    have hjk : j ≠ k := by
      rintro rfl
      exact hk hstage
    exact ⟨Function.update_of_ne hjk .., Function.update_of_ne hjk ..⟩
  · exact ⟨hupdate j (h.others j hj).1, hother j hj⟩

omit [DecidableEq T] [DecidableEq A] [DecidableEq D] in
/-- An assertion fails in both. -/
theorem Rel.abort (h : Rel c s lists e) {i : ι} (hchunk : s.chunk i = e.table.chunk i)
    (hstage : e.stage i ≠ .deduplicate) :
    Rel c { s with aborted := true } lists { e with aborted := true } := by
  have houter := h.outer hstage (s.chunk i) s.stage e.stage (fun _ _ _ => ⟨rfl, rfl⟩)
    (fun j hj => (h.others j hj).2) s.rest s.out true
  rw [Function.update_eq_self, hchunk, Function.update_eq_self] at houter
  rw [h.written.1, h.written.2.1] at houter
  have hs : ({ s with aborted := true } : State T A ι D κ) =
      { s with rest := e.rest, out := e.out, aborted := true } := by
    rw [← h.written.1, ← h.written.2.1]
  rw [hs]
  exact houter

omit [DecidableEq D] in
theorem subCompress_none {table : Table ι D κ} {i : ι} (h : (table.chunk i).state ≠ .UNCOMPRESSED) :
    subCompress packed table i = none := by
  rw [subCompress]
  split
  · contradiction
  · rfl

/-- A chunk is compressed in both. -/
theorem Rel.compress (h : Rel c s lists e) {i : ι} (hs : step c packed s (.compress i) = some s') :
    ∃ e', Archive.step c.digest packed e (.compress i) = some e' ∧ Rel c s' lists e' := by
  rw [step] at hs
  split_ifs at hs with hguard
  obtain ⟨hrun, -, hstage⟩ := hguard
  have hunheld : ∀ t, (s.pc t).chunk ≠ some i := h.unheld (by rw [hstage]; decide)
  obtain ⟨hchunk, hstage'⟩ := h.others i hunheld
  obtain ⟨hrest, hout, haborted⟩ := h.written
  rw [hstage] at hstage'
  have hne : e.stage i ≠ .deduplicate := by
    rw [hstage']
    decide
  have hguard : e.aborted = false ∧ e.stage i = .compress := ⟨haborted.symm.trans hrun, hstage'⟩
  have hheld : ∀ j t, (s.pc t).chunk = some j →
      Function.update s.stage i .reorder j = s.stage j ∧ Function.update e.stage i .reorder j = e.stage j := by
    intro j t hj
    have hji : j ≠ i := by
      rintro rfl
      exact hunheld t hj
    exact ⟨Function.update_of_ne hji .., Function.update_of_ne hji ..⟩
  have hother : ∀ j, (∀ t, (s.pc t).chunk ≠ some j) →
      Function.update e.stage i .reorder j = Function.update s.stage i .reorder j := by
    intro j hj
    by_cases hji : j = i
    · rw [hji, Function.update_self, Function.update_self]
    · rw [Function.update_of_ne hji, Function.update_of_ne hji, (h.others j hj).2]
  by_cases hstate : (s.chunk i).state = .UNCOMPRESSED
  · have hstate' : (e.table.chunk i).state = .UNCOMPRESSED := by rw [← hchunk, hstate]
    simp only [subCompress, State.chunks, hstate, Option.some.injEq] at hs
    subst hs
    refine ⟨_, by rw [Archive.step, if_pos hguard, subCompress, hstate'], ?_⟩
    rw [hrest, hout, haborted, ← hchunk]
    exact h.outer hne { s.chunk i with state := .COMPRESSED (packed i) } _ _ hheld hother e.rest e.out e.aborted
  · have hnone : subCompress packed s.chunks i = none := subCompress_none hstate
    have hnone' : subCompress packed e.table i = none := subCompress_none (by rwa [← hchunk])
    simp only [hnone, Option.some.injEq] at hs
    subst hs
    refine ⟨_, by rw [Archive.step, if_pos hguard, hnone'], h.abort hchunk hne⟩

/-- The next record is written in both. -/
theorem Rel.write (h : Rel c s lists e) {file : List ι} (hw : Written c.digest packed file e)
    (hs : step c packed s .write = some s') :
    ∃ e', Archive.step c.digest packed e .write = some e' ∧ Rel c s' lists e' := by
  obtain ⟨hrest, hout, haborted⟩ := h.written
  rw [step] at hs
  cases hr : s.rest with
  | nil =>
    rw [hr] at hs
    cases hs
  | cons i rest =>
    rw [hr] at hs
    simp only at hs
    split_ifs at hs with hguard
    obtain ⟨hrun, -, hstage⟩ := hguard
    obtain ⟨hchunk, hstage'⟩ := h.others i (h.unheld hstage)
    have hnei : e.stage i ≠ .deduplicate := by rwa [hstage']
    -- the chunk that holds the data has been hashed
    obtain ⟨done, -, hsound⟩ := hw
    have hnek : e.stage (e.table.original i) ≠ .deduplicate := (hsound.cached _ _ (hsound.known i hnei)).2.1
    have horiginal : s.chunks.original i = e.table.original i := by
      rw [Table.original, Table.original]
      show (if (s.chunk i).isDuplicate then (s.chunk i).compressedDataRef else i) = _
      rw [hchunk]
    have hk : s.chunks.chunk (s.chunks.original i) = e.table.chunk (e.table.original i) := by
      rw [horiginal]
      exact h.settled hnek
    have hguard : e.aborted = false ∧ e.stage i ≠ .deduplicate := ⟨haborted.symm.trans hrun, hnei⟩
    rw [writeChunkToFile, hk, horiginal] at hs
    cases hstate : (e.table.chunk (e.table.original i)).state with
    | UNCOMPRESSED =>
      rw [hstate] at hs
      cases hs
    | COMPRESSED data =>
      simp only [hstate, Option.map_some, Option.some.injEq] at hs
      subst hs
      have houter := h.outer hnek { e.table.chunk (e.table.original i) with state := .FLUSHED } s.stage e.stage
        (fun _ _ _ => ⟨rfl, rfl⟩) (fun j hj => (h.others j hj).2) rest (s.out ++ [.compress data]) s.aborted
      refine ⟨_, ?_, houter⟩
      rw [Archive.step, ← hrest, hr]
      simp only [if_pos hguard, writeChunkToFile, hstate, Option.map_some]
      rw [hout, haborted]
    | FLUSHED =>
      simp only [hstate, Option.map_some, Option.some.injEq] at hs
      subst hs
      have houter := h.outer hnek (s.chunk (e.table.original i)) s.stage e.stage (fun _ _ _ => ⟨rfl, rfl⟩)
        (fun j hj => (h.others j hj).2) rest (s.out ++ [.fingerprint (c.digest (e.table.original i))]) s.aborted
      rw [Function.update_eq_self, h.settled hnek, Function.update_eq_self] at houter
      refine ⟨_, ?_, houter⟩
      rw [Archive.step, ← hrest, hr]
      simp only [if_pos hguard, writeChunkToFile, hstate, Option.map_some]
      rw [hout, haborted]

/-! ### Alone to the end -/

/-- No assertion has failed, and the program has not ended. -/
def State.Going (s : State T A ι D κ) : Prop := s.aborted = false ∧ s.exited = false

/-- The thread, running alone with `a` from `malloc`, gives its bucket back. -/
def Leaves (c : Config ι D) (packed : ι → κ) (s : State T A ι D κ) (t : T) (a : A) : Prop :=
  ∃ n s', exec (step c packed) s (List.replicate n (.run t (some a))) = some s' ∧ s'.pc t = .idle

variable {t : T} {a : A} {i : ι}

theorem leaves_of_run (hgoing : s.Going) (hrun : run c s t (some a) = some s') (h : Leaves c packed s' t a) :
    Leaves c packed s t a := by
  obtain ⟨n, s'', hexec, hidle⟩ := h
  refine ⟨n + 1, s'', ?_, hidle⟩
  rw [List.replicate_succ, exec_cons_eq_some]
  exact ⟨s', (if_pos hgoing).trans hrun, hexec⟩

omit [DecidableEq A] [DecidableEq ι] [DecidableEq D] in
@[simp] theorem goto_pc (s : State T A ι D κ) (t : T) (p : Pc A ι) : (s.goto t p).pc t = p := Function.update_self ..

theorem leaves_unlock {isDuplicate : Bool} (hgoing : s.Going) (hpc : s.pc t = .unlock i isDuplicate) :
    Leaves c packed s t a := by
  refine leaves_of_run hgoing (by rw [run, hpc]) ⟨0, _, rfl, ?_⟩
  rw [goto_pc]

theorem leaves_hit {k : ι} (hgoing : s.Going) (hpc : s.pc t = .hit i k) : Leaves c packed s t a := by
  refine leaves_of_run hgoing (by rw [run, hpc]) ?_
  refine leaves_of_run hgoing (by rw [run, goto_pc]) ?_
  exact leaves_unlock hgoing (goto_pc ..)

theorem leaves_setRef {k : ι} (hgoing : s.Going) (hpc : s.pc t = .setRef i k) : Leaves c packed s t a := by
  refine leaves_of_run hgoing (by rw [run, hpc]) ?_
  exact leaves_unlock hgoing (goto_pc ..)

theorem leaves_publish {x : A} (hgoing : s.Going) (hpc : s.pc t = .publish i x) : Leaves c packed s t a := by
  refine leaves_of_run hgoing (by rw [run, hpc]) ?_
  exact leaves_unlock hgoing (goto_pc ..)

theorem leaves_setNext {x : A} {first : Option A} (hgoing : s.Going) (hpc : s.pc t = .setNext i x first)
    (hx : s.allocated x = true) : Leaves c packed s t a := by
  refine leaves_of_run hgoing (by rw [run, hpc]; exact if_pos hx) ?_
  exact leaves_publish hgoing (goto_pc ..)

theorem leaves_link {x : A} (hgoing : s.Going) (hpc : s.pc t = .link i x) (hx : s.allocated x = true) :
    Leaves c packed s t a := by
  refine leaves_of_run hgoing (by rw [run, hpc]) ?_
  exact leaves_setNext hgoing (goto_pc ..) hx

theorem leaves_fill {x : A} (hgoing : s.Going) (hpc : s.pc t = .fill i x) (hx : s.allocated x = true) :
    Leaves c packed s t a := by
  refine leaves_of_run hgoing (by rw [run, hpc]; exact if_pos hx) ?_
  exact leaves_link hgoing (goto_pc ..) hx

theorem leaves_malloc (hgoing : s.Going) (hpc : s.pc t = .malloc i) (ha : s.allocated a = false) :
    Leaves c packed s t a := by
  refine leaves_of_run hgoing (by rw [run, hpc]; exact if_neg (ne_true_of_eq_false ha)) ?_
  exact leaves_fill hgoing (goto_pc ..) (Function.update_self ..)

theorem leaves_miss (hgoing : s.Going) (hpc : s.pc t = .miss i) (ha : s.allocated a = false) :
    Leaves c packed s t a := by
  refine leaves_of_run hgoing (by rw [run, hpc]) ?_
  exact leaves_malloc hgoing (goto_pc ..) ha

theorem leaves_value {x : A} (hgoing : s.Going) (hpc : s.pc t = .value i x) (hx : s.allocated x = true) :
    Leaves c packed s t a := by
  refine leaves_of_run hgoing (by rw [run, hpc]; exact if_pos hx) ?_
  exact leaves_hit hgoing (goto_pc ..)

/-- The walk along what is left of the chain. -/
theorem leaves_test {back : List A} (hlinked : Linked s.next back) (hback : ∀ x ∈ back, s.allocated x = true)
    (ha : s.allocated a = false) (hgoing : s.Going) (hpc : s.pc t = .test i back.head?) : Leaves c packed s t a := by
  induction back generalizing s with
  | nil =>
    refine leaves_of_run hgoing (by rw [run, hpc]; rfl) ?_
    exact leaves_miss hgoing (goto_pc ..) ha
  | cons x back ih =>
    rw [List.forall_mem_cons] at hback
    by_cases hkey : c.hash i = s.h x ∧ c.digest i = c.digest (s.k x)
    · have hrun : run c s t (some a) = some (s.goto t (.value i x)) := by
        simp only [run, hpc, List.head?_cons, hback.1, if_true, if_pos hkey]
      exact leaves_of_run hgoing hrun (leaves_value hgoing (goto_pc ..) hback.1)
    · have hrun : run c s t (some a) = some (s.goto t (.next i x)) := by
        simp only [run, hpc, List.head?_cons, hback.1, if_true, if_neg hkey]
      refine leaves_of_run hgoing hrun ?_
      refine leaves_of_run hgoing (by rw [run, goto_pc]; exact if_pos hback.1) ?_
      refine ih hlinked.2 hback.2 ha hgoing ?_
      rw [goto_pc, ← hlinked.1]
      rfl

/-- A thread that has a bucket never waits, never uses memory that is not allocated, and comes to the end. -/
theorem Rel.leaves (h : Rel c s lists e) (hgoing : s.Going) (ht : (s.pc t).inside = some i)
    (ha : s.allocated a = false) :
    Leaves c packed s t a := by
  have hassert := h.asserts t
  have halloc : ∀ b, ∀ x ∈ lists b, s.allocated x = true := fun b x hx => (h.chained.entry b x hx).1
  have hown : ∀ x, (s.pc t).own = some x → s.allocated x = true := fun x hx => (h.own t x hx).1
  cases hpc : s.pc t with
  | idle =>
    rw [hpc] at ht
    cases ht
  | lock j =>
    rw [hpc] at ht
    cases ht
  | head j =>
    refine leaves_of_run hgoing (by rw [Hashing.run, hpc]) ?_
    refine leaves_test (i := j) (h.chained.places.linked (c.index j)) (halloc _) ha hgoing ?_
    rw [goto_pc, h.chained.heads]
  | test j p =>
    rw [hpc] at hassert
    obtain ⟨-, front, back, hl, rfl, -⟩ := hassert
    have hlinked := (h.chained.places.linked (c.index j)).drop front.length
    rw [hl, List.drop_left] at hlinked
    refine leaves_test hlinked (fun x hx => halloc (c.index j) x ?_) ha hgoing hpc
    rw [hl]
    exact List.mem_append_right _ hx
  | value j x =>
    rw [hpc] at hassert
    exact leaves_value hgoing hpc (halloc _ x hassert.2.1)
  | next j x =>
    rw [hpc] at hassert
    obtain ⟨-, front, back, hl, -⟩ := hassert
    have hlinked := (h.chained.places.linked (c.index j)).drop front.length
    rw [hl, List.drop_left] at hlinked
    have hmem : ∀ y ∈ x :: back, s.allocated y = true := by
      intro y hy
      refine halloc (c.index j) y ?_
      rw [hl]
      exact List.mem_append_right _ hy
    refine leaves_of_run hgoing (by rw [Hashing.run, hpc]; exact if_pos (hmem x (List.mem_cons_self ..))) ?_
    refine leaves_test (i := j) hlinked.2 (fun y hy => hmem y (List.mem_cons_of_mem x hy)) ha hgoing ?_
    rw [goto_pc, ← hlinked.1]
  | miss j => exact leaves_miss hgoing hpc ha
  | malloc j => exact leaves_malloc hgoing hpc ha
  | fill j x => exact leaves_fill hgoing hpc (hown x (by rw [hpc]; rfl))
  | link j x => exact leaves_link hgoing hpc (hown x (by rw [hpc]; rfl))
  | setNext j x first => exact leaves_setNext hgoing hpc (hown x (by rw [hpc]; rfl))
  | publish j x => exact leaves_publish hgoing hpc
  | hit j k => exact leaves_hit hgoing hpc
  | setRef j k => exact leaves_setRef hgoing hpc
  | unlock j isDuplicate => exact leaves_unlock hgoing hpc

end Stages

/-! ### Runs -/

section Runs
variable (c : Config ι D) (packed : ι → κ)

omit [DecidableEq T] [DecidableEq A] [DecidableEq ι] [DecidableEq D] in
theorem rel_new (h : A → BitVec 32) (k v : A → ι) (next : A → Option A) (file : List ι) :
    Rel c (State.new h k v next file : State T A ι D κ) (fun _ => []) (Encoder.new file) where
  chained :=
    { places := ⟨fun _ => trivial, fun _ => List.nodup_nil, fun _ _ _ ha => absurd ha List.not_mem_nil⟩
      heads := fun _ => rfl
      entry := fun _ _ ha => absurd ha List.not_mem_nil
      cache := by
        intro d i
        constructor
        · intro hd
          cases hd
        · rintro ⟨-, b, a, ha, -⟩
          exact absurd ha List.not_mem_nil }
  held := Held.new
  own := by
    intro t a ha
    cases ha
  chunks := by
    intro t i hi
    cases hi
  asserts := fun _ => trivial
  others := fun _ _ => ⟨rfl, rfl⟩
  written := ⟨rfl, rfl, rfl⟩

/-- One step of the threads is at most one step of the encoder. -/
theorem sim_step {file : List ι} {s s' : State T A ι D κ} {a : Action T A ι} {e : Encoder ι D κ}
    (hR : (∃ lists, Rel c s lists e) ∧ Written c.digest packed file e) (hs : step c packed s a = some s') :
    ((∃ lists, Rel c s' lists e) ∧ Written c.digest packed file e) ∨
      ∃ b e', Archive.step c.digest packed e b = some e' ∧
        (∃ lists, Rel c s' lists e') ∧ Written c.digest packed file e' := by
  obtain ⟨⟨lists, h⟩, hw⟩ := hR
  cases a with
  | fetch t i =>
    rw [step] at hs
    split at hs
    · rename_i hpc
      split_ifs at hs with hguard
      cases hs
      exact Or.inl ⟨⟨lists, h.fetch hpc hguard.2.2.1 hguard.2.2.2⟩, hw⟩
    · cases hs
  | run t a =>
    rw [step] at hs
    split_ifs at hs with hguard
    have hfollows : Follows c packed s' e := h.run hguard.1 hs
    rcases hfollows with hsame | ⟨i, e', lists', hstep, hrel⟩
    · exact Or.inl ⟨hsame, hw⟩
    · exact Or.inr ⟨_, e', hstep, ⟨lists', hrel⟩, written_step hw hstep⟩
  | compress i =>
    obtain ⟨e', hstep, hrel⟩ := h.compress hs
    exact Or.inr ⟨_, e', hstep, ⟨lists, hrel⟩, written_step hw hstep⟩
  | write =>
    obtain ⟨e', hstep, hrel⟩ := h.write hw hs
    exact Or.inr ⟨_, e', hstep, ⟨lists, hrel⟩, written_step hw hstep⟩

variable (h : A → BitVec 32) (k v : A → ι) (next : A → Option A) (file : List ι)

/-- What holds in every state that the threads reach. -/
theorem reached {as : List (Action T A ι)} {s : State T A ι D κ}
    (hs : exec (step c packed) (State.new h k v next file) as = some s) :
    ∃ es e, exec (Archive.step c.digest packed) (Encoder.new file) es = some e ∧
      (∃ lists, Rel c s lists e) ∧ Written c.digest packed file e := by
  refine exec_sim (R := fun s e => (∃ lists, Rel c s lists e) ∧ Written c.digest packed file e)
    (fun _ _ _ _ => sim_step c packed) ⟨⟨_, rel_new c h k v next file⟩, [], rfl, sound_new file⟩ hs

/-- CORRECT: at the grain of single accesses, too. Whatever the order in which the threads get at the hash table, the
    locks, the entries and the chunks, and whatever unused memory holds: the run is one of the encoder in which
    `sub_Deduplicate` is a single step, no assertion fails, and the archive is the one it should be. -/
theorem refines_encoder (as : List (Action T A ι)) (s : State T A ι D κ)
    (hs : exec (step c packed) (State.new h k v next file) as = some s) :
    (∃ es e, exec (Archive.step c.digest packed) (Encoder.new file) es = some e ∧
      e.rest = s.rest ∧ e.out = s.out ∧ e.aborted = s.aborted) ∧
    ∃ (done : List ι) (orig : ι → ι), file = done ++ s.rest ∧ (∀ i ∈ done, c.digest (orig i) = c.digest i) ∧
      (∀ i ∈ done, ∀ j ∈ done, c.digest i = c.digest j → orig i = orig j) ∧
      s.out = archive c.digest packed orig [] done ∧ s.aborted = false := by
  obtain ⟨es, e, hes, ⟨lists, hrel⟩, done, hfile, hsound⟩ := reached c packed h k v next file hs
  obtain ⟨hrest, hout, haborted⟩ := hrel.written
  refine ⟨⟨es, e, hes, hrest.symm, hout.symm, haborted.symm⟩, done, e.table.original, by rw [hrest, hfile], ?_, ?_,
    hout.trans hsound.out, haborted.trans hsound.running⟩
  · intro i hi
    exact (hsound.cached _ _ (hsound.known i (hsound.hashed i hi))).1
  · intro i hi j hj hij
    have hki := hsound.known i (hsound.hashed i hi)
    rw [hij, hsound.known j (hsound.hashed j hj), Option.some.injEq] at hki
    exact hki.symm

/-- All chunks have one digest. -/
def sevens : Config ℕ ℕ := ⟨fun _ => 0, 53, fun _ => 7⟩

/-- Two threads and two chunks. -/
def twoChunks : State Bool ℕ ℕ ℕ ℕ := State.new (fun _ => 9) (fun _ => 8) (fun _ => 7) (fun _ => some 6) [0, 1]

/-- The first thread gets the bucket. -/
def locked : List (Action Bool ℕ ℕ) := [.fetch true 1, .fetch false 0, .run true none]

/-- The second thread gets it afterwards, and it finds the entry of the first. -/
theorem refines_encoder_two :
    ∃ s, exec (step sevens fun i => 100 + i) twoChunks (locked ++ List.replicate 9 (.run true (some 3)) ++
      List.replicate 7 (.run false none) ++ [.compress 1, .write, .write]) = some s ∧
      s.out = [.compress 101, .fingerprint 7] ∧
      (∃ es e, exec (Archive.step sevens.digest fun i => 100 + i) (Encoder.new [0, 1]) es = some e ∧
        e.rest = s.rest ∧ e.out = s.out ∧ e.aborted = s.aborted) ∧
      ∃ (done : List ℕ) (orig : ℕ → ℕ), [0, 1] = done ++ s.rest ∧
        (∀ i ∈ done, sevens.digest (orig i) = sevens.digest i) ∧
        (∀ i ∈ done, ∀ j ∈ done, sevens.digest i = sevens.digest j → orig i = orig j) ∧
        s.out = archive sevens.digest (fun i => 100 + i) orig [] done ∧ s.aborted = false := by
  have hout : (exec (step sevens fun i => 100 + i) twoChunks (locked ++ List.replicate 9 (.run true (some 3)) ++
      List.replicate 7 (.run false none) ++ [.compress 1, .write, .write])).map State.out =
        some [.compress 101, .fingerprint 7] := by decide +kernel
  obtain ⟨s, hs, hs'⟩ := Option.map_eq_some_iff.1 hout
  exact ⟨s, hs, hs', refines_encoder sevens _ _ _ _ _ [0, 1] _ s hs⟩

omit [DecidableEq A] [DecidableEq ι] [DecidableEq D] in
@[simp] theorem goto_pc_of_ne {s : State T A ι D κ} {t u : T} (p : Pc A ι) (hu : u ≠ t) :
    (s.goto t p).pc u = s.pc u := Function.update_of_ne hu ..

/-- A thread that runs does not move the others. -/
theorem run_pc_of_ne {s s' : State T A ι D κ} {t u : T} {a : Option A} (hs : run c s t a = some s') (hu : u ≠ t) :
    s'.pc u = s.pc u := by
  have hgoto : ∀ {s₁ : State T A ι D κ} {p : Pc A ι}, some (s₁.goto t p) = some s' → s₁.pc = s.pc →
      s'.pc u = s.pc u := by
    rintro s₁ p hs₁ hpc
    rw [← Option.some.inj hs₁, goto_pc_of_ne p hu, hpc]
  rw [run] at hs
  split at hs
  case h_9 =>
    split at hs
    · cases hs
      rfl
    · split_ifs at hs
      exact hgoto hs rfl
  all_goals first
    | (cases hs; done)
    | exact hgoto hs rfl
    | (split_ifs at hs <;> exact hgoto hs rfl)

/-- However long it runs alone. -/
theorem alone_pc_of_ne {s s' : State T A ι D κ} {t u : T} {a : Option A} (hu : u ≠ t) (n : ℕ)
    (hs : exec (step c packed) s (List.replicate n (.run t a)) = some s') : s'.pc u = s.pc u := by
  induction n generalizing s with
  | zero =>
    cases hs
    rfl
  | succ n ih =>
    rw [List.replicate_succ, exec_cons_eq_some] at hs
    obtain ⟨s₁, hstep, hrest⟩ := hs
    rw [step] at hstep
    split_ifs at hstep
    exact (ih hrest).trans (run_pc_of_ne c hstep hu)

/-- CORRECT: no thread is stuck. In every state that is reached, a thread that has a bucket is alone in it and, running
    alone, gives it back; and a thread that waits for a bucket waits for such a thread. -/
theorem gives_back (htable : 0 < c.tablelength) (as : List (Action T A ι)) (s : State T A ι D κ)
    (hs : exec (step c packed) (State.new h k v next file) as = some s) (hexited : s.exited = false) (t : T) :
    (∀ i, (s.pc t).inside = some i → (∀ u j, (s.pc u).inside = some j → c.index j = c.index i → u = t) ∧
      ∀ a, s.allocated a = false → ∃ n s', exec (step c packed) s (List.replicate n (.run t (some a))) = some s' ∧
        s'.pc t = .idle ∧ s'.locks (c.index i) = none) ∧
    ∀ i, s.pc t = .lock i → (∀ a, ∃ s', step c packed s (.run t a) = some s') ∨
      ∃ u j, (s.pc u).inside = some j ∧ c.index j = c.index i := by
  obtain ⟨es, e, -, ⟨lists, hrel⟩, done, -, hsound⟩ := reached c packed h k v next file hs
  have hgoing : s.Going := ⟨hrel.written.2.2.trans hsound.running, hexited⟩
  refine ⟨fun i hi => ⟨fun u j hu hj => hrel.alone hi hu hj, fun a ha => ?_⟩, fun i hpc => ?_⟩
  · have hleaves : Leaves c packed s t a := hrel.leaves hgoing hi ha
    obtain ⟨n, s', hexec, hidle⟩ := hleaves
    refine ⟨n, s', hexec, hidle, ?_⟩
    have hs' : exec (step c packed) (State.new h k v next file)
        (as ++ List.replicate n (.run t (some a))) = some s' := by
      rw [exec_append, hs, Option.bind_some, hexec]
    obtain ⟨-, e', -, ⟨lists', hrel'⟩, -⟩ := reached c packed h k v next file hs'
    -- who has the lock now was inside before, and there was nobody but `t`
    rw [Option.eq_none_iff_forall_ne_some]
    intro u hlock
    obtain ⟨j, hu, hj⟩ := Option.map_eq_some_iff.1 ((hrel'.held.iff u (c.index i)).1 hlock)
    have hne : u ≠ t := by
      rintro rfl
      rw [hidle] at hu
      cases hu
    rw [alone_pc_of_ne c packed hne n hexec] at hu
    exact hne (hrel.alone hi hu hj)
  cases hlock : s.locks (c.index i) with
  | none =>
    left
    intro a
    have hindex : c.index i < c.tablelength := Nat.mod_lt _ htable
    refine ⟨{ s with locks := Function.update s.locks (c.index i) (some t) }.goto t (.head i), ?_⟩
    rw [step, if_pos (show s.aborted = false ∧ s.exited = false from hgoing), run, hpc]
    exact if_pos ⟨hindex, hlock⟩
  | some u =>
    right
    obtain ⟨j, hu, hj⟩ := Option.map_eq_some_iff.1 ((hrel.held.iff u (c.index i)).1 hlock)
    exact ⟨u, j, hu, hj⟩

/-- The first thread has the bucket, and the second waits for it. -/
theorem gives_back_two :
    ∃ s, exec (step sevens fun i => 100 + i) twoChunks locked = some s ∧ s.pc false = .lock 0 ∧
      (∃ n s', exec (step sevens fun i => 100 + i) s (List.replicate n (.run true (some 3))) = some s' ∧
        s'.pc true = .idle ∧ s'.locks (sevens.index 1) = none) ∧
      ((∀ a, ∃ s', step sevens (fun i => 100 + i) s (.run false a) = some s') ∨
        ∃ u j, (s.pc u).inside = some j ∧ sevens.index j = sevens.index 0) := by
  have hview : (exec (step sevens fun i => 100 + i) twoChunks locked).map
      (fun s => (s.exited, s.pc true, s.pc false, s.allocated 3)) = some (false, Pc.head 1, Pc.lock 0, false) := rfl
  obtain ⟨s, hs, hs'⟩ := Option.map_eq_some_iff.1 hview
  simp only [Prod.mk.injEq] at hs'
  obtain ⟨hexited, hfirst, hsecond, hfree⟩ := hs'
  have htable : 0 < sevens.tablelength := by decide
  refine ⟨s, hs, hsecond, ?_, ?_⟩
  · exact ((gives_back sevens _ _ _ _ _ [0, 1] htable _ s hs hexited true).1 1 (by rw [hfirst]; rfl)).2 3 hfree
  · exact (gives_back sevens _ _ _ _ _ [0, 1] htable _ s hs hexited false).2 0 hsecond

end Runs

end Turkey.Hashing
