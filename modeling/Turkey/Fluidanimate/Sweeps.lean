import Turkey.Fluidanimate.Frames

/-! Loops over the particles of the cells, as the passes of a frame have them.

    Such a loop counts the particles of a cell and moves a pointer along the list of its structures, to the next
    one after the 16th particle of a structure. A loop that moves the pointer only under a condition stays in
    the first structure whose 16th particle does not meet it. -/

namespace Turkey.Fluid
open Turkey.Chains
variable {I T P : Type*} [DecidableEq I]

/-- The next `n` particles from particle `j` on. `goesOn` is what the 16th particle of a structure must meet for
    the pointer to go on; it is looked at before the particle is changed. -/
def parLoop (next : Addr I → Option (Addr I)) (body : P → P) (goesOn : P → Bool) :
    ℕ → ℕ → Option (Addr I) → (Addr I → ℕ → P) → Option (Addr I → ℕ → P)
  | 0, _, _, slot => some slot
  | n + 1, j, cell, slot => cell.bind fun c =>
    let x := slot c (j % 16)
    parLoop next body goesOn n (j + 1) (if j % 16 = 15 ∧ goesOn x = true then next c else some c)
      (Function.update slot c (Function.update (slot c) (j % 16) (body x)))

/-- The loops of these cells, in this order. -/
def cellLoops (s : State I T P) (body : I → P → P) (goesOn : I → P → Bool) (cells : List I)
    (slot : Addr I → ℕ → P) : Option (Addr I → ℕ → P) :=
  cells.foldlM (fun slot c => parLoop s.mem.next (body c) (goesOn c) (s.num c) 0 (some (.head s.cells c)) slot) slot

/-! ### What a loop does to the particles -/

/-- The pointer comes to the structure of particle `j`. -/
def reached (goesOn : P → Bool) (ps : List P) (j : ℕ) : Bool :=
  (List.range (j / 16)).all fun b => ps[16 * b + 15]?.any goesOn

/-- The particles in the structures that the pointer comes to are changed. -/
def visit (body : P → P) (goesOn : P → Bool) (ps : List P) : List P :=
  ps.mapIdx fun j x => if reached goesOn ps j = true then body x else x

/-- The first `n` rounds of the loop. -/
def visitUpto (body : P → P) (goesOn : P → Bool) (ps : List P) (n : ℕ) : List P :=
  ps.mapIdx fun j x => if j < n ∧ reached goesOn ps j = true then body x else x

section Visit
variable {body : P → P} {goesOn : P → Bool} {ps : List P}

@[simp] theorem length_visit : (visit body goesOn ps).length = ps.length := by simp [visit]

@[simp] theorem length_visitUpto {n : ℕ} : (visitUpto body goesOn ps n).length = ps.length := by simp [visitUpto]

theorem visitUpto_zero : visitUpto body goesOn ps 0 = ps :=
  List.ext_getElem (by simp) fun j _ _ => by simp [visitUpto]

theorem visitUpto_length : visitUpto body goesOn ps ps.length = visit body goesOn ps := by
  refine List.ext_getElem (by simp) fun j hj hj' => ?_
  simp only [length_visit] at hj'
  simp [visit, visitUpto, hj']

theorem getElem?_visitUpto (body : P → P) (goesOn : P → Bool) (ps : List P) (n j : ℕ) :
    (visitUpto body goesOn ps n)[j]? =
    ps[j]?.map fun x => if j < n ∧ reached goesOn ps j = true then body x else x := by
  rw [visitUpto, List.getElem?_mapIdx]

/-- A round in which the pointer is where the particle is. -/
theorem visitUpto_succ {j : ℕ} {x : P} (hx : ps[j]? = some x) (h : reached goesOn ps j = true) :
    visitUpto body goesOn ps (j + 1) = (visitUpto body goesOn ps j).set j (body x) := by
  refine List.ext_getElem? fun k => ?_
  rw [List.getElem?_set, length_visitUpto, getElem?_visitUpto, getElem?_visitUpto]
  by_cases hk : j = k
  · subst hk
    rw [if_pos rfl, if_pos (List.getElem?_eq_some_iff.1 hx).1, hx]
    simp [h]
  · rw [if_neg hk]
    have hlt : k < j + 1 ↔ k < j := by omega
    simp only [hlt]

/-- A round in which it is in an earlier structure. -/
theorem visitUpto_stuck {j : ℕ} (h : reached goesOn ps j = false) :
    visitUpto body goesOn ps (j + 1) = visitUpto body goesOn ps j := by
  refine List.ext_getElem? fun k => ?_
  rw [getElem?_visitUpto, getElem?_visitUpto]
  congr 1
  funext x
  have hk : (k < j + 1 ∧ reached goesOn ps k = true) ↔ (k < j ∧ reached goesOn ps k = true) := by
    refine and_congr_left fun hr => ⟨fun hlt => ?_, fun hlt => by omega⟩
    have hne : k ≠ j := by
      rintro rfl
      rw [h] at hr
      exact Bool.false_ne_true hr
    omega
  simp only [hk]

theorem reached_succ {p j : ℕ} {x : P} (hx : ps[16 * p + 15]? = some x) (hj : j / 16 = p + 1) :
    reached goesOn ps j = (reached goesOn ps (16 * p) && goesOn x) := by
  have hp : 16 * p / 16 = p := by omega
  rw [reached, reached, hj, hp, List.range_succ, List.all_append]
  simp [hx]

theorem reached_congr {j k : ℕ} (h : j / 16 = k / 16) : reached goesOn ps j = reached goesOn ps k := by
  rw [reached, reached, h]

theorem reached_mono {j k : ℕ} (h : j / 16 ≤ k / 16) (hk : reached goesOn ps k = true) :
    reached goesOn ps j = true := by
  rw [reached, List.all_eq_true] at hk ⊢
  intro b hb
  rw [List.mem_range] at hb
  exact hk b (List.mem_range.2 (by omega))

/-- A loop that always goes on changes every particle. -/
theorem visit_map (h : ∀ x, goesOn x = true) : visit body goesOn ps = ps.map body := by
  refine List.ext_getElem (by simp) fun j hj _ => ?_
  have hr : reached goesOn ps j = true := by
    rw [reached, List.all_eq_true]
    intro b hb
    rw [List.mem_range] at hb
    simp only [length_visit] at hj
    rw [List.getElem?_eq_getElem (by omega)]
    exact h _
  simp [visit, hr]

theorem reached_map {Q : Type*} (f : Q → P) (goesOn : P → Bool) (qs : List Q) (j : ℕ) :
    reached goesOn (qs.map f) j = reached (fun x => goesOn (f x)) qs j := by
  simp only [reached, List.getElem?_map, Option.any_map]

theorem visit_of_map {Q : Type*} (f : Q → P) (qs : List Q) : visit body goesOn (qs.map f) =
    qs.mapIdx fun j x => if reached (fun x => goesOn (f x)) qs j = true then body (f x) else f x := by
  refine List.ext_getElem? fun j => ?_
  simp only [visit, reached_map, List.getElem?_mapIdx, List.getElem?_map, Option.map_map]
  rfl

end Visit

/-- A particle of a list is written. -/
theorem Holds.set {m : Mem I T P} {l : List (Addr I)} {ps : List P} (h : Holds m l ps) (hl : l.Nodup) {a : Addr I}
    {j : ℕ} (ha : l[j / 16]? = some a) (x : P) :
    Holds { m with slot := Function.update m.slot a (Function.update (m.slot a) (j % 16) x) } l (ps.set j x) := by
  intro k y hy
  rw [List.getElem?_set] at hy
  by_cases hk : j = k
  · subst hk
    rw [if_pos rfl] at hy
    obtain ⟨_, hy⟩ := Option.ite_none_right_eq_some.1 hy
    obtain rfl := Option.some.inj hy
    exact ⟨a, ha, update_slot.trans (if_pos ⟨rfl, rfl⟩)⟩
  · rw [if_neg hk] at hy
    obtain ⟨b, hb, hslot⟩ := h k y hy
    refine ⟨b, hb, update_slot.trans ((if_neg ?_).trans hslot)⟩
    rintro ⟨rfl, hmod⟩
    -- the structures of a list are different ones
    have hdiv : k / 16 = j / 16 := by
      obtain ⟨hlt, hget⟩ := List.getElem?_eq_some_iff.1 hb
      obtain ⟨hlt', hget'⟩ := List.getElem?_eq_some_iff.1 ha
      exact (hl.getElem_inj_iff).1 (hget.trans hget'.symm)
    omega

/-- What a loop must be like when it may stay in a structure: the particles that it meets again are not changed
    again, and the pointer stays. -/
def Settles (body : P → P) (goesOn : P → Bool) : Prop :=
  (∀ x, goesOn x = true) ∨ ((∀ x, body (body x) = body x) ∧ ∀ x, goesOn x = false → goesOn (body x) = false)

section Loop
variable {m : Mem I T P} {l : List (Addr I)} {ps : List P} {body : P → P} {goesOn : P → Bool}

/-- One round: the particle at the place of the counter in structure `p` is changed. -/
theorem parLoop_succ (body : P → P) (goesOn : P → Bool) (hl : Linked m.next l) (hnd : l.Nodup)
    {slot : Addr I → ℕ → P} {qs : List P}
    (h : Holds { m with slot := slot } l qs) {j p : ℕ} {z : P} (hz : qs[16 * p + j % 16]? = some z) (n : ℕ) :
    ∃ slot', parLoop m.next body goesOn (n + 1) j l[p]? slot =
        parLoop m.next body goesOn n (j + 1) (if j % 16 = 15 ∧ goesOn z = true then l[p + 1]? else l[p]?) slot' ∧
      Holds { m with slot := slot' } l (qs.set (16 * p + j % 16) (body z)) ∧ ∀ a ∉ l, slot' a = slot a := by
  have hdiv : (16 * p + j % 16) / 16 = p := by omega
  have hmod : (16 * p + j % 16) % 16 = j % 16 := by omega
  obtain ⟨a, ha, hslot⟩ := h _ z hz
  have hset := h.set hnd ha (body z)
  rw [hmod] at hslot hset
  rw [hdiv] at ha
  have hslot : slot a (j % 16) = z := hslot
  refine ⟨_, ?_, hset, fun b hb => Function.update_of_ne ?_ ..⟩
  · rw [parLoop, ha, Option.bind_some]
    simp only [hslot, hl.next_eq ha]
  · rintro rfl
    exact hb (List.mem_of_getElem? ha)

/-- The loop from particle `j` on, with the pointer at structure `p`: where the particle is, or before it. -/
theorem parLoop_eq (hl : Linked m.next l) (hnd : l.Nodup) (hset : Settles body goesOn) :
    ∀ (n j p : ℕ) (slot : Addr I → ℕ → P), j + n = ps.length → p ≤ j / 16 → reached goesOn ps (16 * p) = true →
    (p = j / 16 ∨ 16 * (p + 1) ≤ j ∧ ∃ x, ps[16 * p + 15]? = some x ∧ goesOn x = false) →
    Holds { m with slot := slot } l (visitUpto body goesOn ps j) →
    ∃ slot', parLoop m.next body goesOn n j l[p]? slot = some slot' ∧
      Holds { m with slot := slot' } l (visit body goesOn ps) ∧ ∀ a ∉ l, slot' a = slot a
  | 0, j, p, slot, hj, _, _, _, h => by
    obtain rfl : j = ps.length := hj
    rw [visitUpto_length] at h
    exact ⟨slot, rfl, h, fun _ _ => rfl⟩
  | n + 1, j, p, slot, hj, hp, hr, hat, h => by
    obtain ⟨x, hx⟩ : ∃ x, ps[16 * p + j % 16]? = some x := ⟨_, List.getElem?_eq_getElem (by omega)⟩
    have hri : reached goesOn ps (16 * p + j % 16) = true := (reached_congr (by omega)).trans hr
    have hround := getElem?_visitUpto body goesOn ps j (16 * p + j % 16)
    rw [hx, Option.map_some] at hround
    obtain ⟨slot₁, hloop, h₁, hout₁⟩ := parLoop_succ body goesOn hl hnd h hround n
    by_cases hat' : p = j / 16
    · -- the pointer is where the particle is
      have hidx : 16 * p + j % 16 = j := by omega
      rw [hidx] at hx h₁ hri hloop
      simp only [Nat.lt_irrefl, false_and, if_false] at h₁ hloop
      rw [← visitUpto_succ hx hri] at h₁
      by_cases hgo : j % 16 = 15 ∧ goesOn x = true
      · have hx15 : ps[16 * p + 15]? = some x := by
          rw [← hgo.1, hidx]
          exact hx
        obtain ⟨slot', hs, hh, hout⟩ := parLoop_eq hl hnd hset n (j + 1) (p + 1) slot₁ (by omega) (by omega)
          (by rw [reached_succ hx15 (by omega), hr, hgo.2, Bool.and_true]) (.inl (by omega)) h₁
        rw [if_pos hgo] at hloop
        exact ⟨slot', hloop.trans hs, hh, fun a ha => (hout a ha).trans (hout₁ a ha)⟩
      · have hnext : p = (j + 1) / 16 ∨
            16 * (p + 1) ≤ j + 1 ∧ ∃ x, ps[16 * p + 15]? = some x ∧ goesOn x = false := by
          by_cases h15 : j % 16 = 15
          · refine .inr ⟨by omega, x, by rw [← h15, hidx]; exact hx, ?_⟩
            exact Bool.eq_false_iff.2 fun hgo' => hgo ⟨h15, hgo'⟩
          · exact .inl (by omega)
        obtain ⟨slot', hs, hh, hout⟩ := parLoop_eq hl hnd hset n (j + 1) p slot₁ (by omega) (by omega) hr hnext h₁
        rw [if_neg hgo] at hloop
        exact ⟨slot', hloop.trans hs, hh, fun a ha => (hout a ha).trans (hout₁ a ha)⟩
    · -- the pointer has stayed behind, and the particle has been changed before
      obtain ⟨hle, y, hy, hgoes⟩ := hat.resolve_left hat'
      obtain ⟨hidem, hstay⟩ := hset.resolve_left fun hall => Bool.false_ne_true (hgoes.symm.trans (hall y))
      have hrj : reached goesOn ps j = false := by
        refine Bool.eq_false_iff.2 fun hrj => ?_
        have := reached_mono (j := 16 * (p + 1)) (by omega) hrj
        rw [reached_succ hy (by omega), hgoes, Bool.and_false] at this
        exact Bool.false_ne_true this
      have hchanged : 16 * p + j % 16 < j ∧ reached goesOn ps (16 * p + j % 16) = true := ⟨by omega, hri⟩
      simp only [if_pos hchanged, hidem] at h₁ hround hloop
      obtain ⟨hlt, hget⟩ := List.getElem?_eq_some_iff.1 hround
      rw [← hget, List.set_getElem_self, ← visitUpto_stuck hrj] at h₁
      have hgo : ¬(j % 16 = 15 ∧ goesOn (body x) = true) := by
        rintro ⟨h15, hgo⟩
        rw [h15, hy] at hx
        obtain rfl := Option.some.inj hx
        exact Bool.false_ne_true ((hstay y hgoes).symm.trans hgo)
      obtain ⟨slot', hs, hh, hout⟩ := parLoop_eq hl hnd hset n (j + 1) p slot₁ (by omega) (by omega) hr
        (.inr ⟨by omega, y, hy, hgoes⟩) h₁
      rw [if_neg hgo] at hloop
      exact ⟨slot', hloop.trans hs, hh, fun a ha => (hout a ha).trans (hout₁ a ha)⟩

end Loop

/-! ### The cells -/

section Cells
variable {s : State I T P} {lists : Place I T → List (Addr I)} {got : I → List P}

/-- The loop of one cell leaves the others as they are. -/
theorem Filled.parLoop (hs : Settled s lists) {slot : Addr I → ℕ → P} (hf : Filled (s.advance slot) lists got)
    (c : I) {body : P → P} {goesOn : P → Bool} (hset : Settles body goesOn) :
    ∃ slot', parLoop s.mem.next body goesOn (s.num c) 0 (some (.head s.cells c)) slot = some slot' ∧
      Filled (s.advance slot') lists (Function.update got c (visit body goesOn (got c))) := by
  have hlen : (got c).length = s.num c := hf.counted c
  obtain ⟨l, hl, -⟩ := hs.dst c
  have hhead : some (.head s.cells c) = (lists (.dst c))[0]? := by rw [hl]; rfl
  have hstart : Holds { s.mem with slot := slot } (lists (.dst c)) (visitUpto body goesOn (got c) 0) := by
    rw [visitUpto_zero]
    exact hf.holds c
  obtain ⟨slot', hloop, hholds, hout⟩ := parLoop_eq (hs.owned.places.linked (.dst c))
    (hs.owned.places.nodup (.dst c)) hset (s.num c) 0 0 slot (by omega) (Nat.le_refl _)
    rfl (.inl rfl) hstart
  refine ⟨slot', by rw [hhead]; exact hloop, fun i => ?_, fun i => ?_⟩
  · by_cases hi : i = c
    · subst hi
      rw [Function.update_self, length_visit]
      exact hlen
    · rw [Function.update_of_ne hi]
      exact hf.counted i
  · by_cases hi : i = c
    · subst hi
      rw [Function.update_self]
      exact hholds
    · rw [Function.update_of_ne hi]
      intro k x hx
      obtain ⟨a, ha, hslot⟩ := hf.holds i k x hx
      refine ⟨a, ha, (congrFun (hout a fun hmem => ?_) _).trans hslot⟩
      have := hs.owned.places.apart (.dst c) (.dst i) a hmem (List.mem_of_getElem? ha)
      exact hi (Place.dst.inj this).symm

/-- The loops of different cells. -/
theorem Filled.cellLoops (hs : Settled s lists) (body : I → P → P) {goesOn : I → P → Bool}
    (hset : ∀ c, Settles (body c) (goesOn c)) : ∀ (cells : List I) {slot : Addr I → ℕ → P} {got : I → List P},
    cells.Nodup → Filled (s.advance slot) lists got →
    ∃ slot', cellLoops s body goesOn cells slot = some slot' ∧ Filled (s.advance slot') lists
      fun c => if c ∈ cells then visit (body c) (goesOn c) (got c) else got c
  | [], slot, got, _, hf => ⟨slot, rfl, by simpa using hf⟩
  | c :: cells, slot, got, hnd, hf => by
    rw [List.nodup_cons] at hnd
    obtain ⟨slot₁, hloop, hf₁⟩ := hf.parLoop hs c (hset c)
    obtain ⟨slot₂, hloops, hf₂⟩ := Filled.cellLoops hs body hset cells hnd.2 hf₁
    refine ⟨slot₂, ?_, ?_⟩
    · rw [Fluid.cellLoops, List.foldlM_cons, hloop]
      exact hloops
    · convert hf₂ using 2 with d
      by_cases hd : d = c
      · subst hd
        simp [hnd.1]
      · simp [hd]

end Cells

end Turkey.Fluid
