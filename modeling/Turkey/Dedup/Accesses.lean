import Turkey.Dedup.Hashing

/-! The accesses of `sub_Deduplicate`, and of the stages behind it, beside an encoder in which `sub_Deduplicate` is one
    step. The step is taken where an entry is put to the front of its chain, and where a duplicate gets the reference
    to its original: up to there and from there on nobody else can tell the difference. -/

namespace Turkey.Hashing
open Turkey.Run Turkey.Chains Turkey.Archive Turkey.Buckets Turkey.Locks
variable {T A ι D κ : Type} [DecidableEq T] [DecidableEq A] [DecidableEq ι] [DecidableEq D]

/-- What one access of a thread that has the lock of the bucket of `i` may change. -/
structure Change (c : Config ι D) (t : T) (i : ι) (p : Pc A ι) (s s' : State T A ι D κ) (lists lists' : ℕ → List A)
    (e e' : Encoder ι D κ) : Prop where
  pc : s'.pc = Function.update s.pc t p
  inside : p.inside = some i := by rfl
  same : s'.locks = s.locks ∧ s'.fetched = s.fetched ∧ s'.stage = s.stage := by exact ⟨rfl, rfl, rfl⟩
  written : s'.rest = s.rest ∧ s'.out = s.out ∧ s'.aborted = s.aborted ∧
    e'.rest = e.rest ∧ e'.out = e.out ∧ e'.aborted = e.aborted := by exact ⟨rfl, rfl, rfl, rfl, rfl, rfl⟩
  chained : Chained c s' lists' e'.table.cache
  elsewhere : ∀ b ≠ c.index i, lists' b = lists b := by exact fun _ _ => rfl
  moved : ∀ a, In lists' a → In lists a ∨ (s.pc t).own = some a := by exact fun _ h => Or.inl h
  entry : ∀ a, (s.pc t).own ≠ some a →
    s'.h a = s.h a ∧ s'.k a = s.k a ∧ s'.v a = s.v a ∧ s'.next a = s.next a := by exact fun _ _ => ⟨rfl, rfl, rfl, rfl⟩
  allocated : ∀ a, s.allocated a = true → s'.allocated a = true := by exact fun _ h => h
  own : ∀ a, p.own = some a →
    s'.allocated a = true ∧ ¬In lists' a ∧ ((s.pc t).own = some a ∨ s.allocated a = false)
  cache : ∀ j, c.index j ≠ c.index i → e'.table.cache (c.digest j) = e.table.cache (c.digest j) := by
    exact fun _ _ => rfl
  chunk : ∀ j ≠ i, s'.chunk j = s.chunk j ∧ e'.table.chunk j = e.table.chunk j ∧ e'.stage j = e.stage j := by
    exact fun _ _ => ⟨rfl, rfl, rfl⟩
  asserts : Asserts c s' lists' e' p

section Rules
variable {c : Config ι D} {s s' : State T A ι D κ} {lists lists' : ℕ → List A} {e e' : Encoder ι D κ} {t : T} {i : ι}
  {p : Pc A ι}

omit [DecidableEq T] [DecidableEq A] [DecidableEq ι] [DecidableEq D] in
/-- A thread inside is alone in its bucket. -/
theorem Rel.alone (h : Rel c s lists e) {u : T} {j : ι} (ht : (s.pc t).inside = some i) (hu : (s.pc u).inside = some j)
    (hb : c.index j = c.index i) : u = t := by
  refine h.held.exclusive (l := c.index i) ?_ ?_
  · rw [hu, Option.map_some, hb]
  · rw [ht, Option.map_some]

omit [DecidableEq A] [DecidableEq ι] [DecidableEq D] in
/-- The other threads are not disturbed. -/
theorem Rel.change (h : Rel c s lists e) (ht : (s.pc t).inside = some i) (hc : Change c t i p s s' lists lists' e e') :
    Rel c s' lists' e' := by
  have hti : (s.pc t).chunk = some i := Pc.chunk_of_inside ht
  have hpi : p.chunk = some i := Pc.chunk_of_inside hc.inside
  have hne : ∀ u, u ≠ t → s'.pc u = s.pc u := by
    intro u hu
    rw [hc.pc, Function.update_of_ne hu]
  have hself : s'.pc t = p := by rw [hc.pc, Function.update_self]
  have hchunk : ∀ u, (s'.pc u).chunk = (s.pc u).chunk := by
    intro u
    by_cases hu : u = t
    · rw [hu, hself, hpi, hti]
    · rw [hne u hu]
  -- an entry of the thread is not that of another one
  have hfresh : ∀ u a, u ≠ t → (s.pc u).own = some a → p.own ≠ some a := by
    intro u a hu hown hp
    obtain ⟨halloc, -, hunique⟩ := h.own u a hown
    rcases (hc.own a hp).2.2 with hsame | hfree
    · exact hu (hunique t hsame).symm
    · rw [halloc] at hfree
      cases hfree
  refine ⟨hc.chained, ?_, ?_, ?_, ?_, ?_, ?_⟩
  · have hinside : (fun u => (s'.pc u).inside.map c.index) = fun u => (s.pc u).inside.map c.index := by
      funext u
      by_cases hu : u = t
      · rw [hu, hself, hc.inside, ht]
      · rw [hne u hu]
    rw [hinside, hc.same.1]
    exact h.held
  · intro u a hown
    by_cases hu : u = t
    · rw [hu, hself] at hown
      obtain ⟨halloc, hin, -⟩ := hc.own a hown
      refine ⟨halloc, hin, fun w hw => ?_⟩
      by_contra hwu
      rw [hu] at hwu
      rw [hne w hwu] at hw
      exact hfresh w a hwu hw hown
    · rw [hne u hu] at hown
      obtain ⟨halloc, hin, hunique⟩ := h.own u a hown
      refine ⟨hc.allocated a halloc, fun hin' => ?_, fun w hw => ?_⟩
      · rcases hc.moved a hin' with hin' | hmine
        · exact hin hin'
        · exact hu (hunique t hmine).symm
      · by_cases hwt : w = t
        · rw [hwt, hself] at hw
          exact absurd hw (hfresh u a hu hown)
        · rw [hne w hwt] at hw
          exact hunique w hw
  · intro u j hj
    rw [hchunk] at hj
    obtain ⟨hfetched, hstage, hunique⟩ := h.chunks u j hj
    refine ⟨by rw [hc.same.2.1, hfetched], by rw [hc.same.2.2, hstage], fun w hw => ?_⟩
    rw [hchunk] at hw
    exact hunique w hw
  · intro u
    by_cases hu : u = t
    · rw [hu, hself]
      exact hc.asserts
    · rw [hne u hu]
      have hother : ∀ j, (s.pc u).chunk = some j → j ≠ i := by
        rintro j hj rfl
        exact hu ((h.chunks u j hj).2.2 t hti).symm
      have hbucket : ∀ j, (s.pc u).inside = some j → c.index j ≠ c.index i := fun j hj hb => hu (h.alone ht hj hb)
      refine (h.asserts u).stay (fun j hj => ?_) (fun j hj => ?_) fun j a hj ha => hc.entry a ?_
      · obtain ⟨h1, h2, h3⟩ := hc.chunk j (hother j hj)
        exact ⟨h3, fun _ => ⟨h1, h2⟩, fun heq => by rw [h1, h2, heq]⟩
      · exact ⟨hc.elsewhere _ (hbucket j hj), hc.cache j (hbucket j hj)⟩
      · rintro hmine
        rcases ha with ha | ha
        · exact (h.own t a hmine).2.1 ⟨_, ha⟩
        · exact hu ((h.own t a hmine).2.2 u ha)
  · intro j hj
    have hji : j ≠ i := by
      rintro rfl
      exact hj t (by rw [hchunk, hti])
    obtain ⟨h1, h2, h3⟩ := hc.chunk j hji
    rw [h1, h2, h3, hc.same.2.2]
    exact h.others j fun u hu => hj u (by rw [hchunk, hu])
  · obtain ⟨h1, h2, h3⟩ := h.written
    obtain ⟨w1, w2, w3, w4, w5, w6⟩ := hc.written
    rw [w1, w2, w3, w4, w5, w6]
    exact ⟨h1, h2, h3⟩

/-! ### The accesses inside a bucket -/

omit [DecidableEq A] [DecidableEq ι] [DecidableEq D] in
/-- What a thread does to its own variables. -/
theorem Rel.goto (h : Rel c s lists e) {q : Pc A ι} (hpc : s.pc t = q) (hq : q.inside = some i) (hp : p.inside = some i)
    (hown : p.own = q.own) (hasserts : Asserts c s lists e p) : Rel c (s.goto t p) lists e := by
  subst hpc
  refine h.change hq { pc := rfl, inside := hp, chained := { h.chained with }, own := ?_, asserts := ?_ }
  · intro a ha
    rw [hown] at ha
    obtain ⟨halloc, hin, -⟩ := h.own t a ha
    exact ⟨halloc, hin, Or.inl ha⟩
  · cases p <;> exact hasserts

omit [DecidableEq A] [DecidableEq D] in
/-- What a thread writes to its chunk. -/
theorem Rel.setChunk (h : Rel c s lists e) {q : Pc A ι} (hpc : s.pc t = q) (hq : q.inside = some i)
    (hp : p.inside = some i) (hown : p.own = none) (x : Chunk ι κ)
    (hchain : Chained c s lists e'.table.cache) (hcache : e'.table.cache = e.table.cache)
    (hchunk : ∀ j ≠ i, e'.table.chunk j = e.table.chunk j ∧ e'.stage j = e.stage j)
    (hwritten : e'.rest = e.rest ∧ e'.out = e.out ∧ e'.aborted = e.aborted)
    (hasserts : Asserts c { s with chunk := Function.update s.chunk i x } lists e' p) :
    Rel c ({ s with chunk := Function.update s.chunk i x }.goto t p) lists e' := by
  subst hpc
  refine h.change hq
    { pc := rfl
      inside := hp
      written := ⟨rfl, rfl, rfl, hwritten⟩
      chained := { hchain with }
      own := ?_
      cache := ?_
      chunk := ?_
      asserts := ?_ }
  · intro a ha
    rw [hown] at ha
    cases ha
  · intro j _
    rw [hcache]
  · intro j hj
    exact ⟨Function.update_of_ne hj .., hchunk j hj⟩
  · cases p <;> exact hasserts

/-- The step of the encoder when the digest is new. -/
theorem step_missed {digest : ι → D} {packed : ι → κ} (hrun : e.aborted = false) (hstage : e.stage i = .deduplicate)
    (hcache : e.table.cache (digest i) = none) : Archive.step digest packed e (.deduplicate i) = some { e with
      table := ⟨Function.update e.table.cache (digest i) (some i),
        Function.update e.table.chunk i { e.table.chunk i with isDuplicate := false }⟩
      stage := Function.update e.stage i .compress } := by
  rw [Archive.step, if_pos ⟨hrun, hstage⟩]
  simp only [subDeduplicate, hcache, Bool.false_eq_true, if_false]

/-- The step of the encoder when the digest is known. -/
theorem step_found {digest : ι → D} {packed : ι → κ} {k : ι} (hrun : e.aborted = false)
    (hstage : e.stage i = .deduplicate) (hcache : e.table.cache (digest i) = some k) :
    Archive.step digest packed e (.deduplicate i) = some { e with
      table := ⟨e.table.cache, Function.update e.table.chunk i
        { e.table.chunk i with isDuplicate := true, compressedDataRef := k }⟩
      stage := Function.update e.stage i .reorder } := by
  rw [Archive.step, if_pos ⟨hrun, hstage⟩]
  simp only [subDeduplicate, hcache, if_true]

omit [DecidableEq T] [DecidableEq ι] [DecidableEq D] in
/-- An entry that is in no chain may be written to. -/
theorem Chained.write {cache : D → Option ι} (h : Chained c s lists cache) {a : A} (ha : ¬In lists a) (hv : BitVec 32)
    (k v : ι) (first : Option A) : Chained c { s with
      h := Function.update s.h a hv, k := Function.update s.k a k, v := Function.update s.v a v,
      next := Function.update s.next a first } lists cache := by
  have hne : ∀ b, ∀ x ∈ lists b, x ≠ a := by
    rintro b x hx rfl
    exact ha ⟨b, hx⟩
  have hk : ∀ b, ∀ x ∈ lists b, Function.update s.k a k x = s.k x := fun b x hx => Function.update_of_ne (hne b x hx) ..
  refine ⟨h.places.write ha first, h.heads, fun b x hx => ?_, fun d j => ?_⟩
  · obtain ⟨halloc, ⟨h1, -, h3⟩, hb⟩ := h.entry b x hx
    simp only [Filled, hk b x hx, Function.update_of_ne (hne b x hx), true_and]
    exact ⟨halloc, ⟨h1, h3⟩, hb⟩
  · rw [h.cache]
    refine and_congr_right fun _ => exists_congr fun b => exists_congr fun x => and_congr_right fun hx => ?_
    show _ ↔ Function.update s.k a k x = j
    rw [hk b x hx]

omit [DecidableEq T] [DecidableEq ι] in
/-- A filled entry whose digest is in no chain is put to the front of its chain. -/
theorem Chained.publish {cache : D → Option ι} (h : Chained c s lists cache) {a : A} (ha : ¬In lists a)
    (halloc : s.allocated a = true) (hfilled : Filled c s i a) (hnext : s.next a = (lists (c.index i)).head?)
    (hd : Differ c s i (lists (c.index i))) :
    Chained c { s with table := Function.update s.table (c.index i) (some a) }
      (Function.update lists (c.index i) (a :: lists (c.index i)))
      (Function.update cache (c.digest i) (some i)) := by
  have hpush := h.places.push ha (c.index i)
  rw [← hnext, Function.update_eq_self] at hpush
  refine ⟨hpush, fun b => ?_, fun b x hx => ?_, fun d j => ?_⟩
  · by_cases hb : b = c.index i
    · rw [hb]
      show Function.update _ _ _ _ = _
      rw [Function.update_self, Function.update_self, List.head?_cons]
    · show Function.update _ _ _ _ = _
      rw [Function.update_of_ne hb, Function.update_of_ne hb, h.heads]
  · rw [mem_update] at hx
    split_ifs at hx with hb
    · rcases List.mem_cons.1 hx with rfl | hx
      · refine ⟨halloc, ?_, ?_⟩
        · show Filled c s (s.k x) x
          rw [hfilled.2.1]
          exact hfilled
        · show c.index (s.k x) = b
          rw [hfilled.2.1, hb]
      · rw [hb]
        exact h.entry _ x hx
    · exact h.entry b x hx
  · by_cases hdi : d = c.digest i
    · subst hdi
      rw [Function.update_self, Option.some.injEq]
      constructor
      · rintro rfl
        exact ⟨rfl, c.index i, a, by rw [Function.update_self]; exact List.mem_cons_self .., hfilled.2.1⟩
      · rintro ⟨hj, b, x, hx, hk⟩
        rw [mem_update] at hx
        split_ifs at hx with hb
        · rcases List.mem_cons.1 hx with rfl | hx
          · exact hfilled.2.1.symm.trans hk
          · refine absurd hj ?_
            rw [← hk]
            exact hd x hx
        · -- another entry of the digest would be in the same bucket
          have hkb : c.index (s.k x) = b := (h.entry b x hx).2.2
          rw [show s.k x = j from hk, index_congr hj] at hkb
          exact absurd hkb.symm hb
    · rw [Function.update_of_ne hdi, h.cache]
      refine and_congr_right fun hj => ⟨?_, ?_⟩
      · rintro ⟨b, x, hx, hk⟩
        refine ⟨b, x, ?_, hk⟩
        rw [mem_update]
        split_ifs with hb
        · rw [← hb]
          exact List.mem_cons_of_mem a hx
        · exact hx
      · rintro ⟨b, x, hx, hk⟩
        rw [mem_update] at hx
        split_ifs at hx with hb
        · rcases List.mem_cons.1 hx with rfl | hx
          · refine absurd ?_ hdi
            rw [← hj, ← hk]
            exact congrArg c.digest hfilled.2.1
          · exact ⟨_, x, hx, hk⟩
        · exact ⟨b, x, hx, hk⟩

omit [DecidableEq T] [DecidableEq A] [DecidableEq ι] [DecidableEq D] in
/-- There is no memory: the program ends. -/
theorem Rel.exit (h : Rel c s lists e) : Rel c { s with exited := true } lists e := by
  refine ⟨{ h.chained with }, h.held, h.own, h.chunks, fun u => ?_, h.others, h.written⟩
  show Asserts c _ lists e (s.pc u)
  have hassert := h.asserts u
  cases hq : s.pc u <;> rw [hq] at hassert <;> exact hassert

omit [DecidableEq ι] [DecidableEq D] in
/-- A thread gets an entry that is not in use. -/
theorem Rel.malloc (h : Rel c s lists e) (hpc : s.pc t = .malloc i) {a : A} (hfree : s.allocated a = false)
    (hasserts : Asserts c s lists e (.malloc i)) :
    Rel c ({ s with allocated := Function.update s.allocated a true }.goto t (.fill i a)) lists e := by
  have hkeep : ∀ x, s.allocated x = true → Function.update s.allocated a true x = true := by
    intro x hx
    by_cases hxa : x = a
    · rw [hxa, Function.update_self]
    · rw [Function.update_of_ne hxa, hx]
  refine h.change (t := t) (i := i) (by rw [hpc]; rfl)
    { pc := rfl
      chained := { h.chained with entry := ?_ }
      allocated := hkeep
      own := ?_
      asserts := hasserts }
  · intro b x hx
    obtain ⟨halloc, hfilled, hb⟩ := h.chained.entry b x hx
    exact ⟨hkeep x halloc, hfilled, hb⟩
  · intro x hx
    obtain rfl := Option.some.inj hx
    refine ⟨Function.update_self .., ?_, Or.inr hfree⟩
    rintro ⟨b, hb⟩
    rw [(h.chained.entry b a hb).1] at hfree
    cases hfree

omit [DecidableEq ι] [DecidableEq D] in
/-- A thread writes to the entry that nobody else knows. -/
theorem Rel.setEntry (h : Rel c s lists e) {q : Pc A ι} {a : A} (hpc : s.pc t = q) (hq : q.inside = some i)
    (hp : p.inside = some i) (hqa : q.own = some a) (hpa : p.own = some a) {hv : BitVec 32} {k v : ι} {first : Option A}
    (hchain : Chained c { s with
      h := Function.update s.h a hv, k := Function.update s.k a k, v := Function.update s.v a v,
      next := Function.update s.next a first } lists e.table.cache)
    (hasserts : Asserts c { s with
      h := Function.update s.h a hv, k := Function.update s.k a k, v := Function.update s.v a v,
      next := Function.update s.next a first } lists e p) :
    Rel c ({ s with
      h := Function.update s.h a hv, k := Function.update s.k a k, v := Function.update s.v a v,
      next := Function.update s.next a first }.goto t p) lists e := by
  subst hpc
  refine h.change hq { pc := rfl, inside := hp, chained := { hchain with }, entry := ?_, own := ?_, asserts := ?_ }
  · intro x hx
    have hxa : x ≠ a := by
      rintro rfl
      exact hx hqa
    exact ⟨Function.update_of_ne hxa .., Function.update_of_ne hxa .., Function.update_of_ne hxa ..,
      Function.update_of_ne hxa ..⟩
  · intro x hx
    rw [hpa] at hx
    obtain rfl := Option.some.inj hx
    obtain ⟨halloc, hin, -⟩ := h.own t a hqa
    exact ⟨halloc, hin, Or.inl hqa⟩
  · cases p <;> exact hasserts

/-! ### The locks -/

omit [DecidableEq A] [DecidableEq ι] [DecidableEq D] in
/-- What the new place of a thread has in common with the old one. -/
theorem update_same {β : Type} {pc : T → Pc A ι} (f : Pc A ι → β) (hp : f p = f (pc t)) (u : T) :
    f (Function.update pc t p u) = f (pc u) := by
  by_cases hu : u = t
  · rw [hu, Function.update_self, hp]
  · rw [Function.update_of_ne hu]

omit [DecidableEq A] [DecidableEq ι] [DecidableEq D] in
theorem inside_update (pc : T → Pc A ι) (f : ι → ℕ) : (fun u => (Function.update pc t p u).inside.map f) =
    Function.update (fun u => (pc u).inside.map f) t (p.inside.map f) := by
  funext u
  by_cases hu : u = t
  · rw [hu, Function.update_self, Function.update_self]
  · rw [Function.update_of_ne hu, Function.update_of_ne hu]

omit [DecidableEq A] [DecidableEq ι] [DecidableEq D] in
/-- A bucket is locked. -/
theorem Rel.acquire (h : Rel c s lists e) (hpc : s.pc t = .lock i) (hfree : s.locks (c.index i) = none) :
    Rel c ({ s with locks := Function.update s.locks (c.index i) (some t) }.goto t (.head i)) lists e := by
  have hchunk : ∀ u, (Function.update s.pc t (Pc.head i) u).chunk = (s.pc u).chunk :=
    update_same Pc.chunk (by rw [hpc]; rfl)
  have hown : ∀ u, (Function.update s.pc t (Pc.head i) u).own = (s.pc u).own := update_same Pc.own (by rw [hpc]; rfl)
  refine ⟨{ h.chained with }, ?_, fun u a ha => ?_, fun u j hj => ?_, fun u => ?_, fun j hj => ?_, h.written⟩
  · show Held _ fun u => (Function.update s.pc t (Pc.head i) u).inside.map c.index
    rw [inside_update]
    exact h.held.acquire hfree (by rw [hpc]; rfl)
  · obtain ⟨halloc, hin, hunique⟩ := h.own u a ((hown u).symm.trans ha)
    exact ⟨halloc, hin, fun w hw => hunique w ((hown w).symm.trans hw)⟩
  · obtain ⟨hfetched, hstage, hunique⟩ := h.chunks u j ((hchunk u).symm.trans hj)
    exact ⟨hfetched, hstage, fun w hw => hunique w ((hchunk w).symm.trans hw)⟩
  · show Asserts c _ lists e (Function.update s.pc t (Pc.head i) u)
    by_cases hu : u = t
    · have hassert := h.asserts t
      rw [hpc] at hassert
      rw [hu, Function.update_self]
      exact hassert
    · rw [Function.update_of_ne hu]
      have hassert := h.asserts u
      cases hq : s.pc u <;> rw [hq] at hassert <;> exact hassert
  · exact h.others j fun u hu => hj u ((hchunk u).trans hu)

omit [DecidableEq A] [DecidableEq D] in
/-- A thread unlocks its bucket, and its chunk goes on to the next stage. -/
theorem Rel.release (h : Rel c s lists e) {isDuplicate : Bool} (hpc : s.pc t = .unlock i isDuplicate) :
    Rel c ({ s with
      locks := Function.update s.locks (c.index i) none
      stage := Function.update s.stage i (if isDuplicate then .reorder else .compress) }.goto t .idle) lists e := by
  have hti : (s.pc t).chunk = some i := by rw [hpc]; rfl
  have hassert := h.asserts t
  rw [hpc] at hassert
  have hown : ∀ u, (Function.update s.pc t Pc.idle u).own = (s.pc u).own := update_same Pc.own (by rw [hpc]; rfl)
  have hchunk : ∀ u j, (Function.update s.pc t Pc.idle u).chunk = some j → (s.pc u).chunk = some j ∧ j ≠ i := by
    intro u j hj
    by_cases hu : u = t
    · rw [hu, Function.update_self] at hj
      cases hj
    · rw [Function.update_of_ne hu] at hj
      refine ⟨hj, ?_⟩
      rintro rfl
      exact hu ((h.chunks u j hj).2.2 t hti).symm
  refine ⟨{ h.chained with }, ?_, fun u a ha => ?_, fun u j hj => ?_, fun u => ?_, fun j hj => ?_, h.written⟩
  · show Held _ fun u => (Function.update s.pc t Pc.idle u).inside.map c.index
    rw [inside_update]
    exact h.held.release (by rw [hpc]; rfl)
  · obtain ⟨halloc, hin, hunique⟩ := h.own u a ((hown u).symm.trans ha)
    exact ⟨halloc, hin, fun w hw => hunique w ((hown w).symm.trans hw)⟩
  · obtain ⟨hold, hji⟩ := hchunk u j hj
    obtain ⟨hfetched, hstage, hunique⟩ := h.chunks u j hold
    exact ⟨hfetched, (Function.update_of_ne hji ..).trans hstage, fun w hw => hunique w (hchunk w j hw).1⟩
  · show Asserts c _ lists e (Function.update s.pc t Pc.idle u)
    by_cases hu : u = t
    · rw [hu, Function.update_self]
      trivial
    · rw [Function.update_of_ne hu]
      have hassert := h.asserts u
      cases hq : s.pc u <;> rw [hq] at hassert <;> exact hassert
  · by_cases hji : j = i
    · rw [hji]
      refine ⟨hassert.1, hassert.2.trans ?_⟩
      show _ = Function.update s.stage i _ i
      rw [Function.update_self]
    · obtain ⟨h1, h2⟩ := h.others j fun u hu => by
        by_cases hut : u = t
        · rw [hut, hti, Option.some.injEq] at hu
          exact hji hu.symm
        · exact hj u ((congrArg Pc.chunk (Function.update_of_ne hut ..)).trans hu)
      exact ⟨h1, h2.trans (Function.update_of_ne hji ..).symm⟩

omit [DecidableEq A] [DecidableEq D] in
/-- A thread gets a chunk that is nobody else's. -/
theorem Rel.fetch (h : Rel c s lists e) (hpc : s.pc t = .idle) (hstage : s.stage i = .deduplicate)
    (hfetched : s.fetched i = false) :
    Rel c ({ s with fetched := Function.update s.fetched i true }.goto t (.lock i)) lists e := by
  have hnobody : ∀ u, (s.pc u).chunk ≠ some i := by
    intro u hu
    have := (h.chunks u i hu).1
    rw [hfetched] at this
    cases this
  have hown : ∀ u, (Function.update s.pc t (Pc.lock i) u).own = (s.pc u).own := update_same Pc.own (by rw [hpc]; rfl)
  have hchunk : ∀ u j, (Function.update s.pc t (Pc.lock i) u).chunk = some j →
      u = t ∧ j = i ∨ u ≠ t ∧ j ≠ i ∧ (s.pc u).chunk = some j := by
    intro u j hj
    by_cases hu : u = t
    · rw [hu, Function.update_self] at hj
      exact Or.inl ⟨hu, (Option.some.inj hj).symm⟩
    · rw [Function.update_of_ne hu] at hj
      refine Or.inr ⟨hu, ?_, hj⟩
      rintro rfl
      exact hnobody u hj
  refine ⟨{ h.chained with }, ?_, fun u a ha => ?_, fun u j hj => ?_, fun u => ?_, fun j hj => ?_, h.written⟩
  · show Held _ fun u => (Function.update s.pc t (Pc.lock i) u).inside.map c.index
    rw [inside_update]
    exact h.held.stay (by rw [hpc]; rfl)
  · obtain ⟨halloc, hin, hunique⟩ := h.own u a ((hown u).symm.trans ha)
    exact ⟨halloc, hin, fun w hw => hunique w ((hown w).symm.trans hw)⟩
  · rcases hchunk u j hj with ⟨rfl, rfl⟩ | ⟨hut, hji, hold⟩
    · refine ⟨Function.update_self .., hstage, fun w hw => ?_⟩
      rcases hchunk w j hw with ⟨hwt, -⟩ | ⟨-, hne, -⟩
      · exact hwt
      · exact absurd rfl hne
    · obtain ⟨h1, h2, hunique⟩ := h.chunks u j hold
      refine ⟨(Function.update_of_ne hji ..).trans h1, h2, fun w hw => ?_⟩
      rcases hchunk w j hw with ⟨-, hne⟩ | ⟨-, -, hw⟩
      · exact absurd hne hji
      · exact hunique w hw
  · show Asserts c _ lists e (Function.update s.pc t (Pc.lock i) u)
    by_cases hu : u = t
    · rw [hu, Function.update_self]
      obtain ⟨h1, h2⟩ := h.others i hnobody
      exact ⟨h2.trans hstage, h1⟩
    · rw [Function.update_of_ne hu]
      have hassert := h.asserts u
      cases hq : s.pc u <;> rw [hq] at hassert <;> exact hassert
  · refine h.others j fun u hu => ?_
    by_cases hut : u = t
    · rw [hut, hpc] at hu
      cases hu
    · exact hj u ((congrArg Pc.chunk (Function.update_of_ne hut ..)).trans hu)

/-! ### Every access -/

/-- The encoder stays where it is, or takes the step of the thread's chunk. -/
def Follows (c : Config ι D) (packed : ι → κ) (s' : State T A ι D κ) (e : Encoder ι D κ) : Prop :=
  (∃ lists, Rel c s' lists e) ∨
    ∃ i e' lists, Archive.step c.digest packed e (.deduplicate i) = some e' ∧ Rel c s' lists e'

/-- The search is at the entry `p` of the chain. -/
theorem Rel.test {p : Option A} (h : Rel c s lists e) (hpc : s.pc t = .test i p) {a : Option A}
    (hs : run c s t a = some s') : ∃ lists', Rel c s' lists' e := by
  have hassert := h.asserts t
  rw [hpc] at hassert
  obtain ⟨hsame, front, back, hl, hp, hd⟩ := hassert
  cases p with
  | none =>
    simp only [Hashing.run, hpc, Option.some.injEq] at hs
    subst hs
    have hback : back = [] := List.head?_eq_none_iff.1 hp.symm
    rw [hback, List.append_nil] at hl
    exact ⟨lists, h.goto hpc rfl rfl rfl ⟨hsame, by rwa [hl]⟩⟩
  | some x =>
    obtain ⟨back', rfl⟩ := List.head?_eq_some_iff.1 hp.symm
    simp only [Hashing.run, hpc] at hs
    split_ifs at hs with halloc hkey
    · cases hs
      have hx : x ∈ lists (c.index i) := by
        rw [hl]
        exact List.mem_append_right _ (List.mem_cons_self ..)
      exact ⟨lists, h.goto hpc rfl rfl rfl ⟨hsame, hx, hkey.2.symm⟩⟩
    · cases hs
      refine ⟨lists, h.goto hpc rfl rfl rfl ⟨hsame, front, back', hl, fun y hy => ?_⟩⟩
      rcases List.mem_append.1 hy with hy | hy
      · exact hd y hy
      · -- equal digests have equal hash values, so the comparison of the hash values says nothing new
        obtain rfl := List.mem_singleton.1 hy
        intro hdigest
        have hfilled := (h.chained.entry (c.index i) y (by rw [hl]; simp)).2.1
        refine hkey ⟨?_, hdigest.symm⟩
        rw [hfilled.1, Config.hash, Config.hash, hdigest]

/-- The search goes on behind `x`. -/
theorem Rel.next {x : A} (h : Rel c s lists e) (hpc : s.pc t = .next i x) {a : Option A}
    (hs : run c s t a = some s') : ∃ lists', Rel c s' lists' e := by
  have hassert := h.asserts t
  simp only [Hashing.run, hpc] at hs
  rw [hpc] at hassert
  obtain ⟨hsame, front, back, hl, hd⟩ := hassert
  split_ifs at hs with halloc
  cases hs
  have hlinked := h.chained.places.linked (c.index i)
  have hnext : s.next x = back.head? := by
    have hget : (lists (c.index i))[front.length]? = some x := by
      rw [hl, List.getElem?_append_right le_rfl, Nat.sub_self, List.getElem?_cons_zero]
    rw [hlinked.next_eq hget, hl, List.getElem?_append_right (Nat.le_add_right ..), Nat.add_sub_cancel_left,
      List.getElem?_cons_succ, List.head?_eq_getElem?]
  refine ⟨lists, h.goto hpc rfl rfl rfl ⟨hsame, front ++ [x], back, ?_, hnext, hd⟩⟩
  rw [hl, List.append_assoc, List.singleton_append]

/-- The new entry gets its key. -/
theorem Rel.fill {x : A} (h : Rel c s lists e) (hpc : s.pc t = .fill i x) {a : Option A}
    (hs : run c s t a = some s') : ∃ lists', Rel c s' lists' e := by
  have hassert := h.asserts t
  simp only [Hashing.run, hpc] at hs
  rw [hpc] at hassert
  split_ifs at hs with halloc
  cases hs
  have hin : ¬In lists x := (h.own t x (by rw [hpc]; rfl)).2.1
  have hset := h.setEntry (p := .link i x) hpc rfl rfl rfl rfl (h.chained.write hin (c.hash i) i i (s.next x))
    ⟨hassert.1, ?_, ?_, ?_, ?_⟩
  · rw [Function.update_eq_self] at hset
    exact ⟨lists, hset⟩
  · refine hassert.2.congr fun y hy => Function.update_of_ne ?_ ..
    rintro rfl
    exact hin ⟨_, hy⟩
  · exact Function.update_self ..
  · exact Function.update_self ..
  · exact Function.update_self ..

/-- The new entry is put before the first one. -/
theorem Rel.setNext {x : A} {first : Option A} (h : Rel c s lists e) (hpc : s.pc t = .setNext i x first) {a : Option A}
    (hs : run c s t a = some s') : ∃ lists', Rel c s' lists' e := by
  have hassert := h.asserts t
  simp only [Hashing.run, hpc] at hs
  rw [hpc] at hassert
  obtain ⟨hmarked, hd, hfilled, hfirst⟩ := hassert
  split_ifs at hs with halloc
  cases hs
  have hwrite := h.chained.write (h.own t x (by rw [hpc]; rfl)).2.1 (s.h x) (s.k x) (s.v x) first
  have hset := h.setEntry (p := .publish i x) hpc rfl rfl rfl rfl hwrite ?_
  · rw [Function.update_eq_self, Function.update_eq_self, Function.update_eq_self] at hset
    exact ⟨lists, hset⟩
  · rw [Function.update_eq_self, Function.update_eq_self, Function.update_eq_self]
    exact ⟨hmarked, hd, hfilled, (Function.update_self ..).trans hfirst⟩

/-- The new entry becomes the first one: this is the step of the encoder. -/
theorem Rel.publish {packed : ι → κ} {x : A} (h : Rel c s lists e) (he : e.aborted = false)
    (hpc : s.pc t = .publish i x) {a : Option A} (hs : run c s t a = some s') : Follows c packed s' e := by
  have hassert := h.asserts t
  simp only [Hashing.run, hpc, Option.some.injEq] at hs
  rw [hpc] at hassert
  subst hs
  obtain ⟨⟨hstage, hchunk⟩, hd, hfilled, hnext⟩ := hassert
  obtain ⟨halloc, hin, -⟩ := h.own t x (by rw [hpc]; rfl)
  have hpublish := h.chained.publish hin halloc hfilled hnext hd
  refine Or.inr ⟨i, _, Function.update lists (c.index i) (x :: lists (c.index i)),
    step_missed he hstage (h.chained.missed hd), ?_⟩
  refine h.change (t := t) (i := i) (by rw [hpc]; rfl)
    { pc := rfl
      chained := { hpublish with }
      elsewhere := fun b hb => Function.update_of_ne hb ..
      moved := ?_
      own := ?_
      cache := ?_
      chunk := ?_
      asserts := ?_ }
  · intro y hy
    rcases in_push.1 hy with rfl | hy
    · right
      rw [hpc]
      rfl
    · exact Or.inl hy
  · intro y hy
    cases hy
  · intro j hj
    exact Function.update_of_ne (fun hdigest => hj (index_congr hdigest)) ..
  · intro j hj
    exact ⟨rfl, Function.update_of_ne hj .., Function.update_of_ne hj ..⟩
  · refine ⟨?_, Function.update_self ..⟩
    show s.chunk i = Function.update e.table.chunk i _ i
    rw [Function.update_self, hchunk]

/-- Every access of `sub_Deduplicate`. -/
theorem Rel.run {packed : ι → κ} (h : Rel c s lists e) (hrunning : s.aborted = false) {a : Option A}
    (hs : run c s t a = some s') : Follows c packed s' e := by
  have hassert := h.asserts t
  have he : e.aborted = false := h.written.2.2.symm.trans hrunning
  cases hpc : s.pc t with
  | idle =>
    simp only [Hashing.run, hpc] at hs
    cases hs
  | lock i =>
    simp only [Hashing.run, hpc] at hs
    split_ifs at hs with hfree
    cases hs
    exact Or.inl ⟨lists, h.acquire hpc hfree.2⟩
  | head i =>
    simp only [Hashing.run, hpc, Option.some.injEq] at hs
    rw [hpc] at hassert
    subst hs
    refine Or.inl ⟨lists, h.goto hpc rfl rfl rfl ⟨hassert, [], lists (c.index i), rfl, h.chained.heads _, ?_⟩⟩
    intro x hx
    cases hx
  | test i p => exact Or.inl (h.test hpc hs)
  | value i x =>
    simp only [Hashing.run, hpc] at hs
    rw [hpc] at hassert
    obtain ⟨hsame, hx, hd⟩ := hassert
    split_ifs at hs with halloc
    cases hs
    have hv : s.v x = s.k x := (h.chained.entry _ x hx).2.1.2.2
    refine Or.inl ⟨lists, h.goto hpc rfl rfl rfl ⟨hsame, ?_⟩⟩
    rw [hv]
    exact h.chained.found hx hd
  | next i x => exact Or.inl (h.next hpc hs)
  | miss i =>
    simp only [Hashing.run, hpc, Option.some.injEq] at hs
    rw [hpc] at hassert
    subst hs
    obtain ⟨⟨hstage, hchunk⟩, hd⟩ := hassert
    refine Or.inl ⟨lists, h.setChunk hpc rfl rfl rfl _ h.chained rfl (fun j _ => ⟨rfl, rfl⟩) ⟨rfl, rfl, rfl⟩ ?_⟩
    refine ⟨⟨hstage, ?_⟩, hd⟩
    show Function.update _ _ _ _ = _
    rw [Function.update_self, hchunk]
  | malloc i =>
    rw [hpc] at hassert
    cases a with
    | none =>
      simp only [Hashing.run, hpc, Option.some.injEq] at hs
      subst hs
      exact Or.inl ⟨lists, h.exit⟩
    | some x =>
      simp only [Hashing.run, hpc] at hs
      split_ifs at hs with halloc
      cases hs
      exact Or.inl ⟨lists, h.malloc hpc (Bool.not_eq_true _ ▸ halloc) hassert⟩
  | fill i x => exact Or.inl (h.fill hpc hs)
  | link i x =>
    simp only [Hashing.run, hpc, Option.some.injEq] at hs
    rw [hpc] at hassert
    subst hs
    obtain ⟨hmarked, hd, hfilled⟩ := hassert
    exact Or.inl ⟨lists, h.goto hpc rfl rfl rfl ⟨hmarked, hd, hfilled, h.chained.heads _⟩⟩
  | setNext i x first => exact Or.inl (h.setNext hpc hs)
  | publish i x => exact h.publish he hpc hs
  | hit i k =>
    simp only [Hashing.run, hpc, Option.some.injEq] at hs
    rw [hpc] at hassert
    subst hs
    obtain ⟨⟨hstage, hchunk⟩, hk⟩ := hassert
    refine Or.inl ⟨lists, h.setChunk hpc rfl rfl rfl _ h.chained rfl (fun j _ => ⟨rfl, rfl⟩) ⟨rfl, rfl, rfl⟩ ?_⟩
    refine ⟨⟨hstage, ?_⟩, hk⟩
    show Function.update _ _ _ _ = _
    rw [Function.update_self, hchunk]
  | setRef i k =>
    simp only [Hashing.run, hpc, Option.some.injEq] at hs
    rw [hpc] at hassert
    subst hs
    obtain ⟨⟨hstage, hchunk⟩, hk⟩ := hassert
    refine Or.inr ⟨i, _, lists, step_found he hstage hk, ?_⟩
    refine h.setChunk hpc rfl rfl rfl _ h.chained rfl (fun j hj => ?_) ⟨rfl, rfl, rfl⟩ ⟨?_, Function.update_self ..⟩
    · exact ⟨Function.update_of_ne hj .., Function.update_of_ne hj ..⟩
    · show Function.update _ _ _ _ = Function.update _ _ _ _
      rw [Function.update_self, Function.update_self, hchunk]
  | unlock i isDuplicate =>
    simp only [Hashing.run, hpc, Option.some.injEq] at hs
    subst hs
    exact Or.inl ⟨lists, h.release hpc⟩

end Rules

end Turkey.Hashing
