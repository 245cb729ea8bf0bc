import Mathlib.Algebra.BigOperators.Fin
import Mathlib.Algebra.Order.Group.Multiset
import Mathlib.Data.Finset.Max
import Mathlib.Data.Fintype.Basic
import Mathlib.Logic.Equiv.Basic
import Turkey.Schemes.Run

/-! The swaps of canneal (`AtomicPtr::Swap`, called by `netlist::swap_locations`). Every element has an atomic
    pointer to its location. A swap checks the pointer at the lower address out, which leaves `ATOMIC_NULL`
    there, puts its value into the pointer at the higher address, and checks the value it found there in at
    the lower one. A thread that finds `ATOMIC_NULL` reads again.

    One step of a thread is one atomic load, one compare-and-set or one store; `PrivateSet` is a loop of a
    load and a compare-and-set, and `Checkout` is `PrivateSet` with `ATOMIC_NULL`. -/

namespace Turkey.AtomicPtr
open Turkey.Run

variable {A L T : Type*}

/-- Where a thread is in `Swap`, with its local variables. -/
inductive Pc (A L : Type*) where
  | idle
  | checkoutGet (first last : A)
  | checkoutCmpset (first last : A) (val : L)
  | setGet (first last : A) (valFirst : L)
  | setCmpset (first last : A) (valFirst val : L)
  | checkin (first last : A) (valLast : L)
  deriving DecidableEq

/-- `none` is `ATOMIC_NULL`. `swapped` has the swaps whose higher pointer has been set, in the order in
    which that happened. -/
structure State (A L T : Type*) where
  p : A → Option L
  pc : T → Pc A L
  swapped : List (A × A)

/-- A thread calls `Swap`, or takes its next step in it. -/
inductive Action (A T : Type*) where
  | swap (t : T) (this x : A)
  | run (t : T)

def State.new (present : A → L) : State A L T := ⟨fun a => some (present a), fun _ => .idle, []⟩

section Step
variable [LinearOrder A] [DecidableEq L] [DecidableEq T]

def State.setPc (s : State A L T) (t : T) (pc : Pc A L) : State A L T :=
  { s with pc := Function.update s.pc t pc }

def State.store (s : State A L T) (a : A) (val : Option L) : State A L T :=
  { s with p := Function.update s.p a val }

/-- The pointers are processed from lower to higher addresses. -/
def swap (this x : A) : Pc A L := if this < x then .checkoutGet this x else .checkoutGet x this

/-- The next step of a thread. -/
def run (s : State A L T) (t : T) : Option (State A L T) :=
  match s.pc t with
  | .idle => none
  | .checkoutGet first last =>
    match s.p first with
    | none => some s
    | some val => some (s.setPc t (.checkoutCmpset first last val))
  | .checkoutCmpset first last val =>
    if s.p first = some val then some ((s.store first none).setPc t (.setGet first last val))
    else some (s.setPc t (.checkoutGet first last))
  | .setGet first last valFirst =>
    match s.p last with
    | none => some s
    | some val => some (s.setPc t (.setCmpset first last valFirst val))
  | .setCmpset first last valFirst val =>
    if s.p last = some val then
      some { (s.store last (some valFirst)).setPc t (.checkin first last val) with
        swapped := s.swapped ++ [(first, last)] }
    else some (s.setPc t (.setGet first last valFirst))
  | .checkin first _ valLast => some ((s.store first (some valLast)).setPc t .idle)

/-- The two elements of a swap are different. -/
def step (s : State A L T) : Action A T → Option (State A L T)
  | .swap t this x => if s.pc t = .idle ∧ this ≠ x then some (s.setPc t (swap this x)) else none
  | .run t => run s t

end Step

/-! ### What the swaps should do -/

/-- The pointer a thread has checked out, and the value that is to be checked in there. -/
def Pc.held : Pc A L → Option (A × L)
  | .setGet first _ valFirst => some (first, valFirst)
  | .setCmpset first _ valFirst _ => some (first, valFirst)
  | .checkin first _ valLast => some (first, valLast)
  | _ => none

/-- The pointer a thread is about to check out or to set. -/
def Pc.sought : Pc A L → Option A
  | .checkoutGet first _ => some first
  | .checkoutCmpset first _ _ => some first
  | .setGet _ last _ => some last
  | .setCmpset _ last _ _ => some last
  | _ => none

/-- The placement after the swaps so far, each of them a transposition. -/
def State.placement [DecidableEq A] (present : A → L) (s : State A L T) : A → L :=
  s.swapped.foldl (fun q ab => q ∘ Equiv.swap ab.1 ab.2) present

/-- A thread waits for a pointer that another one has checked out. -/
def State.Waits (s : State A L T) (t t' : T) : Prop :=
  ∃ a val, (s.pc t).sought = some a ∧ (s.pc t').held = some (a, val)

/-- By itself, the thread comes to the end of its swap. -/
def State.Finishes [LinearOrder A] [DecidableEq L] [DecidableEq T] (s : State A L T) (t : T) : Prop :=
  ∃ k s', exec step s (List.replicate k (.run t)) = some s' ∧ s'.pc t = .idle

/-- The swaps are atomic, lose no location and do not wait for each other in a circle. When all threads are idle,
    `swapped` has the pairs of all calls, in some order (`swapped_perm`). -/
structure Linearized [LinearOrder A] [Fintype A] [Fintype T] [DecidableEq L] [DecidableEq T] (present : A → L)
    (s : State A L T) : Prop where
  conserved : Finset.univ.val.filterMap s.p + Finset.univ.val.filterMap (fun t => (s.pc t).held.map Prod.snd) =
    Finset.univ.val.map present
  placed : (∀ t, s.pc t = .idle) → ∀ a, s.p a = some (s.placement present a)
  progress : ∀ t, s.pc t ≠ .idle → ∃ t', s.pc t' ≠ .idle ∧ s.Finishes t'
  acyclic : ∀ t, ¬ Relation.TransGen s.Waits t t

/-! ### Pointers and the values that are checked out -/

section Kept
variable [DecidableEq A] [DecidableEq T] {place : A → L} {p : A → Option L} {held : T → Option (A × L)}

/-- A pointer is null exactly while one thread has it checked out. What it holds, or what that thread will
    check in, is the value of the placement. -/
structure Kept (place : A → L) (p : A → Option L) (held : T → Option (A × L)) : Prop where
  full : ∀ a val, p a = some val → val = place a
  out : ∀ t a val, held t = some (a, val) → p a = none ∧ val = place a
  holder : ∀ a, p a = none → ∃ t, held t = some (a, place a)
  unique : ∀ t t' a val val', held t = some (a, val) → held t' = some (a, val') → t = t'

theorem Kept.checkout (h : Kept place p held) {t : T} {a : A} {val : L} (ht : held t = none)
    (ha : p a = some val) : Kept place (Function.update p a none) (Function.update held t (some (a, val))) := by
  obtain rfl := h.full a val ha
  -- nobody has checked `a` out
  have free : ∀ u b v, held u = some (b, v) → b ≠ a := by
    rintro u b v hu rfl
    rw [(h.out u b v hu).1] at ha
    cases ha
  refine ⟨fun b v hb => ?_, fun u b v hu => ?_, fun b hb => ?_, fun u u' b v v' hu hu' => ?_⟩
  · by_cases hba : b = a
    · subst hba
      rw [Function.update_self] at hb
      cases hb
    · rw [Function.update_of_ne hba] at hb
      exact h.full b v hb
  · by_cases hut : u = t
    · subst hut
      rw [Function.update_self] at hu
      obtain ⟨rfl, rfl⟩ := Prod.mk.inj (Option.some.inj hu)
      exact ⟨Function.update_self .., rfl⟩
    · rw [Function.update_of_ne hut] at hu
      rw [Function.update_of_ne (free u b v hu)]
      exact h.out u b v hu
  · by_cases hba : b = a
    · subst hba
      exact ⟨t, Function.update_self ..⟩
    · rw [Function.update_of_ne hba] at hb
      obtain ⟨u, hu⟩ := h.holder b hb
      refine ⟨u, ?_⟩
      rw [Function.update_of_ne (by rintro rfl; rw [ht] at hu; cases hu)]
      exact hu
  · by_cases hut : u = t <;> by_cases hut' : u' = t
    · rw [hut, hut']
    · rw [hut, Function.update_self] at hu
      rw [Function.update_of_ne hut'] at hu'
      exact absurd (Prod.mk.inj (Option.some.inj hu)).1.symm (free u' b v' hu')
    · rw [hut', Function.update_self] at hu'
      rw [Function.update_of_ne hut] at hu
      exact absurd (Prod.mk.inj (Option.some.inj hu')).1.symm (free u b v hu)
    · rw [Function.update_of_ne hut] at hu
      rw [Function.update_of_ne hut'] at hu'
      exact h.unique u u' b v v' hu hu'

theorem Kept.checkin (h : Kept place p held) {t : T} {a : A} {val : L} (ht : held t = some (a, val)) :
    Kept place (Function.update p a (some val)) (Function.update held t none) := by
  obtain ⟨-, rfl⟩ := h.out t a val ht
  have other : ∀ u b v, Function.update held t none u = some (b, v) → held u = some (b, v) ∧ b ≠ a := by
    intro u b v hu
    by_cases hut : u = t
    · rw [hut, Function.update_self] at hu
      cases hu
    · rw [Function.update_of_ne hut] at hu
      refine ⟨hu, ?_⟩
      rintro rfl
      exact hut (h.unique u t b _ _ hu ht)
  refine ⟨fun b v hb => ?_, fun u b v hu => ?_, fun b hb => ?_, fun u u' b v v' hu hu' => ?_⟩
  · by_cases hba : b = a
    · subst hba
      rw [Function.update_self] at hb
      exact (Option.some.inj hb).symm
    · rw [Function.update_of_ne hba] at hb
      exact h.full b v hb
  · obtain ⟨hu, hba⟩ := other u b v hu
    rw [Function.update_of_ne hba]
    exact h.out u b v hu
  · have hba : b ≠ a := by
      rintro rfl
      rw [Function.update_self] at hb
      cases hb
    rw [Function.update_of_ne hba] at hb
    obtain ⟨u, hu⟩ := h.holder b hb
    refine ⟨u, ?_⟩
    rw [Function.update_of_ne]
    · exact hu
    · rintro rfl
      rw [ht] at hu
      exact hba (Prod.mk.inj (Option.some.inj hu)).1.symm
  · exact h.unique u u' b v v' (other u b v hu).1 (other u' b v' hu').1

/-- The step at which a swap takes effect. -/
theorem Kept.set (h : Kept place p held) {t : T} {a b : A} {val val' : L} (ht : held t = some (a, val))
    (hb : p b = some val') (hab : a ≠ b) : Kept (place ∘ Equiv.swap a b) (Function.update p b (some val))
      (Function.update held t (some (a, val'))) := by
  obtain ⟨ha, rfl⟩ := h.out t a val ht
  obtain rfl := h.full b val' hb
  have free : ∀ u c v, held u = some (c, v) → c ≠ b := by
    rintro u c v hu rfl
    rw [(h.out u c v hu).1] at hb
    cases hb
  have other : ∀ u c v, u ≠ t → held u = some (c, v) → c ≠ a := by
    rintro u c v hut hu rfl
    exact hut (h.unique u t c _ _ hu ht)
  refine ⟨fun c v hc => ?_, fun u c v hu => ?_, fun c hc => ?_, fun u u' c v v' hu hu' => ?_⟩
  · by_cases hcb : c = b
    · subst hcb
      rw [Function.update_self] at hc
      rw [Function.comp_apply, Equiv.swap_apply_right]
      exact (Option.some.inj hc).symm
    · rw [Function.update_of_ne hcb] at hc
      have hca : c ≠ a := by
        rintro rfl
        rw [ha] at hc
        cases hc
      rw [Function.comp_apply, Equiv.swap_apply_of_ne_of_ne hca hcb]
      exact h.full c v hc
  · by_cases hut : u = t
    · subst hut
      rw [Function.update_self] at hu
      obtain ⟨rfl, rfl⟩ := Prod.mk.inj (Option.some.inj hu)
      rw [Function.update_of_ne hab, Function.comp_apply, Equiv.swap_apply_left]
      exact ⟨ha, rfl⟩
    · rw [Function.update_of_ne hut] at hu
      rw [Function.update_of_ne (free u c v hu), Function.comp_apply,
        Equiv.swap_apply_of_ne_of_ne (other u c v hut hu) (free u c v hu)]
      exact h.out u c v hu
  · have hcb : c ≠ b := by
      rintro rfl
      rw [Function.update_self] at hc
      cases hc
    rw [Function.update_of_ne hcb] at hc
    by_cases hca : c = a
    · subst hca
      refine ⟨t, ?_⟩
      rw [Function.update_self, Function.comp_apply, Equiv.swap_apply_left]
    · obtain ⟨u, hu⟩ := h.holder c hc
      refine ⟨u, ?_⟩
      rw [Function.comp_apply, Equiv.swap_apply_of_ne_of_ne hca hcb, Function.update_of_ne]
      · exact hu
      · rintro rfl
        rw [ht] at hu
        exact hca (Prod.mk.inj (Option.some.inj hu)).1.symm
  · have back : ∀ w x, Function.update held t (some (a, place b)) w = some (c, x) → ∃ y, held w = some (c, y) := by
      intro w x hw
      by_cases hwt : w = t
      · subst hwt
        rw [Function.update_self] at hw
        exact ⟨_, by rw [ht, (Prod.mk.inj (Option.some.inj hw)).1]⟩
      · rw [Function.update_of_ne hwt] at hw
        exact ⟨x, hw⟩
    obtain ⟨y, hy⟩ := back u v hu
    obtain ⟨y', hy'⟩ := back u' v' hu'
    exact h.unique u u' c y y' hy hy'

end Kept

/-! ### No location is lost -/

/-- Every pointer is full or checked out, and not both. -/
theorem Kept.pointers [Fintype A] [Fintype T] {place : A → L} {p : A → Option L} {held : T → Option (A × L)}
    (h : Kept place p held) : Finset.univ.val.filterMap (fun a => (p a).map fun _ => a) +
      Finset.univ.val.filterMap (fun t => (held t).map Prod.fst) = Finset.univ.val := by
  have full : ∀ a, a ∈ Finset.univ.val.filterMap (fun a => (p a).map fun _ => a) ↔ ∃ val, p a = some val := by
    intro a
    simp [Option.map_eq_some_iff]
  have out : ∀ a, a ∈ Finset.univ.val.filterMap (fun t => (held t).map Prod.fst) ↔ p a = none := by
    intro a
    simp only [Multiset.mem_filterMap, Finset.mem_val, Finset.mem_univ, true_and, Option.map_eq_some_iff]
    constructor
    · rintro ⟨t, ⟨b, val⟩, ht, rfl⟩
      exact (h.out t b val ht).1
    · intro ha
      obtain ⟨t, ht⟩ := h.holder a ha
      exact ⟨t, _, ht, rfl⟩
  refine (Multiset.Nodup.ext ?_ Finset.univ.nodup).2 fun a => ?_
  · refine Multiset.nodup_add.2
      ⟨Multiset.Nodup.filterMap _ ?_ Finset.univ.nodup, Multiset.Nodup.filterMap _ ?_ Finset.univ.nodup, ?_⟩
    · rintro a b c hc hc'
      obtain ⟨_, -, rfl⟩ := Option.map_eq_some_iff.1 hc
      obtain ⟨_, -, rfl⟩ := Option.map_eq_some_iff.1 hc'
      rfl
    · rintro t t' c hc hc'
      obtain ⟨⟨_, val⟩, ht, rfl⟩ := Option.map_eq_some_iff.1 hc
      obtain ⟨⟨_, val'⟩, ht', rfl⟩ := Option.map_eq_some_iff.1 hc'
      exact h.unique t t' _ val val' ht ht'
    · rw [Multiset.disjoint_left]
      intro a ha ha'
      obtain ⟨val, hval⟩ := (full a).1 ha
      rw [(out a).1 ha'] at hval
      cases hval
  · rw [Multiset.mem_add, full, out]
    simp only [Finset.mem_val, Finset.mem_univ, iff_true]
    cases p a with
    | none => exact .inr rfl
    | some val => exact .inl ⟨val, rfl⟩

theorem Kept.conserved [Fintype A] [Fintype T] {place : A → L} {p : A → Option L} {held : T → Option (A × L)}
    (h : Kept place p held) : Finset.univ.val.filterMap p +
      Finset.univ.val.filterMap (fun t => (held t).map Prod.snd) = Finset.univ.val.map place := by
  have full : p = fun a => ((p a).map fun _ => a).map place := by
    funext a
    cases ha : p a with
    | none => rfl
    | some val => rw [h.full a val ha]; rfl
  have out : (fun t => (held t).map Prod.snd) = fun t => ((held t).map Prod.fst).map place := by
    funext t
    cases ht : held t with
    | none => rfl
    | some av => rw [Option.map_some, (h.out t av.1 av.2 ht).2]; rfl
  rw [full, out, ← Multiset.map_filterMap, ← Multiset.map_filterMap, ← Multiset.map_add, h.pointers]

theorem map_placement [DecidableEq A] [Fintype A] (present : A → L) (swaps : List (A × A)) :
    Finset.univ.val.map (swaps.foldl (fun q ab => q ∘ Equiv.swap ab.1 ab.2) present) =
      Finset.univ.val.map present := by
  induction swaps generalizing present with
  | nil => rfl
  | cons ab swaps ih =>
    rw [List.foldl_cons, ih, ← Multiset.map_map]
    congr 1
    have := Finset.map_univ_equiv (Equiv.swap ab.1 ab.2)
    exact congrArg Finset.val this

/-! ### The steps by what they do to the pointers -/

/-- The lower pointer comes first. -/
def Pc.Ordered [LinearOrder A] : Pc A L → Prop
  | .idle => True
  | .checkoutGet first last => first < last
  | .checkoutCmpset first last _ => first < last
  | .setGet first last _ => first < last
  | .setCmpset first last _ _ => first < last
  | .checkin first last _ => first < last

section Proof
variable [LinearOrder A] [DecidableEq T] {present : A → L} {s s' : State A L T} {t : T}

/-- A load, a compare-and-set that fails and a call leave the pointers alone; the other three steps do not. -/
inductive Move (s : State A L T) : State A L T → Prop
  | spin : Move s s
  | quiet (t : T) (pc : Pc A L) (hheld : pc.held = (s.pc t).held) (hord : (s.pc t).Ordered → pc.Ordered) :
      Move s (s.setPc t pc)
  | checkout (t : T) (first last : A) (val : L) (hpc : s.pc t = .checkoutCmpset first last val)
      (hp : s.p first = some val) : Move s ((s.store first none).setPc t (.setGet first last val))
  | set (t : T) (first last : A) (valFirst val : L) (hpc : s.pc t = .setCmpset first last valFirst val)
      (hp : s.p last = some val) :
      Move s { (s.store last (some valFirst)).setPc t (.checkin first last val) with
        swapped := s.swapped ++ [(first, last)] }
  | checkin (t : T) (first last : A) (valLast : L) (hpc : s.pc t = .checkin first last valLast) :
      Move s ((s.store first (some valLast)).setPc t .idle)

theorem ordered_swap {this x : A} (h : this ≠ x) : (swap this x : Pc A L).Ordered := by
  rw [swap]
  split_ifs with hlt
  · exact hlt
  · exact lt_of_le_of_ne (not_lt.1 hlt) h.symm

theorem held_swap (this x : A) : (swap this x : Pc A L).held = none := by
  rw [swap]
  split_ifs <;> rfl

variable [DecidableEq L] in
theorem move_of_run (h : run s t = some s') : Move s s' := by
  rw [run] at h
  rcases hpc : s.pc t with _ | ⟨first, last⟩ | ⟨first, last, val⟩ | ⟨first, last, valFirst⟩ |
    ⟨first, last, valFirst, val⟩ | ⟨first, last, valLast⟩ <;> simp only [hpc] at h
  · cases h
  · split at h <;> obtain rfl := Option.some.inj h
    · exact .spin
    · exact .quiet t _ (by rw [hpc]; rfl) (by rw [hpc]; exact id)
  · split_ifs at h with hp <;> obtain rfl := Option.some.inj h
    · exact .checkout t first last val hpc hp
    · exact .quiet t _ (by rw [hpc]; rfl) (by rw [hpc]; exact id)
  · split at h <;> obtain rfl := Option.some.inj h
    · exact .spin
    · exact .quiet t _ (by rw [hpc]; rfl) (by rw [hpc]; exact id)
  · split_ifs at h with hp <;> obtain rfl := Option.some.inj h
    · exact .set t first last valFirst val hpc hp
    · exact .quiet t _ (by rw [hpc]; rfl) (by rw [hpc]; exact id)
  · obtain rfl := Option.some.inj h
    exact .checkin t first last valLast hpc

variable [DecidableEq L] in
theorem move_of_step {a : Action A T} (h : step s a = some s') : Move s s' := by
  cases a with
  | swap t this x =>
    simp only [step, Option.ite_none_right_eq_some] at h
    obtain ⟨⟨idle, hne⟩, h⟩ := h
    obtain rfl := Option.some.inj h
    exact .quiet t _ (by rw [idle, held_swap]; rfl) fun _ => ordered_swap hne
  | run t => exact move_of_run h

/-! ### The invariant -/

structure Inv (present : A → L) (s : State A L T) : Prop where
  kept : Kept (s.placement present) s.p (Pc.held ∘ s.pc)
  ordered : ∀ t, (s.pc t).Ordered

omit [DecidableEq T] in
theorem inv_new (present : A → L) : Inv present (State.new present : State A L T) where
  kept := ⟨fun _ _ h => (Option.some.inj h).symm, nofun, nofun, nofun⟩
  ordered _ := trivial

theorem ordered_update {pc : T → Pc A L} (h : ∀ u, (pc u).Ordered) {q : Pc A L} (hq : q.Ordered) (u : T) :
    (Function.update pc t q u).Ordered := by
  by_cases hu : u = t
  · subst hu
    rwa [Function.update_self]
  · rw [Function.update_of_ne hu]
    exact h u

theorem Move.inv (hmove : Move s s') (h : Inv present s) : Inv present s' := by
  cases hmove with
  | spin => exact h
  | quiet t pc hheld hord =>
    refine ⟨?_, ordered_update h.ordered (hord (h.ordered t))⟩
    have same : Function.update (Pc.held ∘ s.pc) t pc.held = Pc.held ∘ s.pc := by
      rw [hheld]
      exact Function.update_eq_self ..
    rw [State.setPc, Function.comp_update, same]
    exact h.kept
  | checkout t first last val hpc hp =>
    have hlt := h.ordered t
    rw [hpc] at hlt
    refine ⟨?_, ordered_update h.ordered hlt⟩
    have := h.kept.checkout (t := t) (by rw [Function.comp_apply, hpc]; rfl) hp
    rw [State.setPc, State.store, Function.comp_update]
    exact this
  | set t first last valFirst val hpc hp =>
    have hlt := h.ordered t
    rw [hpc] at hlt
    refine ⟨?_, ordered_update h.ordered hlt⟩
    have := h.kept.set (t := t) (by rw [Function.comp_apply, hpc]; rfl) hp (ne_of_lt hlt)
    rw [State.setPc, State.store, Function.comp_update]
    simp only [State.placement, List.foldl_append, List.foldl_cons, List.foldl_nil]
    exact this
  | checkin t first last valLast hpc =>
    refine ⟨?_, ordered_update h.ordered trivial⟩
    have := h.kept.checkin (t := t) (by rw [Function.comp_apply, hpc]; rfl)
    rw [State.setPc, State.store, Function.comp_update]
    exact this

/-! ### Waiting -/

theorem Pc.Ordered.lt {pc : Pc A L} (h : pc.Ordered) {a b : A} {val : L} (hheld : pc.held = some (a, val))
    (hsought : pc.sought = some b) : a < b := by
  cases pc <;> simp_all [Pc.held, Pc.sought, Pc.Ordered]

omit [DecidableEq T] in
/-- Along a chain of waiting threads the addresses go up. -/
theorem Inv.lt_of_waits (h : Inv present s) {t t' : T} (hw : Relation.TransGen s.Waits t t') :
    ∀ {a b : A}, (s.pc t).sought = some a → (s.pc t').sought = some b → a < b := by
  induction hw with
  | single hw =>
    rintro a b ha hb
    obtain ⟨c, val, hc, hheld⟩ := hw
    rw [hc] at ha
    obtain rfl := Option.some.inj ha
    exact (h.ordered _).lt hheld hb
  | tail _ hw ih =>
    rintro a b ha hb
    obtain ⟨c, val, hc, hheld⟩ := hw
    exact lt_trans (ih ha hc) ((h.ordered _).lt hheld hb)

omit [DecidableEq T] in
theorem Inv.acyclic (h : Inv present s) (t : T) : ¬ Relation.TransGen s.Waits t t := by
  intro hw
  obtain ⟨_, ⟨a, _, ha, _⟩, -⟩ := Relation.TransGen.head'_iff.1 hw
  exact lt_irrefl a (h.lt_of_waits hw ha ha)

omit [LinearOrder A] in
@[simp] theorem setPc_pc (s : State A L T) (pc : Pc A L) : (s.setPc t pc).pc t = pc := Function.update_self ..

variable [DecidableEq L]

theorem finishes_of_run (h : run s t = some s') (hs' : s'.Finishes t) : s.Finishes t := by
  obtain ⟨k, u, hu, idle⟩ := hs'
  exact ⟨k + 1, u, exec_cons_eq_some.2 ⟨s', h, hu⟩, idle⟩

theorem finishes_checkin {first last : A} {val : L} (hpc : s.pc t = .checkin first last val) : s.Finishes t :=
  finishes_of_run (by rw [run, hpc]) ⟨0, _, rfl, setPc_pc ..⟩

theorem run_setGet {first last : A} {valFirst val : L} (hpc : s.pc t = .setGet first last valFirst)
    (hp : s.p last = some val) : run s t = some (s.setPc t (.setCmpset first last valFirst val)) := by
  simp only [run, hpc, hp]

theorem run_setCmpset {first last : A} {valFirst val : L} (hpc : s.pc t = .setCmpset first last valFirst val)
    (hp : s.p last = some val) : run s t = some { (s.store last (some valFirst)).setPc t (.checkin first last val)
      with swapped := s.swapped ++ [(first, last)] } := by
  simp only [run, hpc, hp, if_pos]

theorem run_checkoutGet {first last : A} {val : L} (hpc : s.pc t = .checkoutGet first last)
    (hp : s.p first = some val) : run s t = some (s.setPc t (.checkoutCmpset first last val)) := by
  simp only [run, hpc, hp]

theorem run_checkoutCmpset {first last : A} {val : L} (hpc : s.pc t = .checkoutCmpset first last val)
    (hp : s.p first = some val) : run s t = some ((s.store first none).setPc t (.setGet first last val)) := by
  simp only [run, hpc, hp, if_pos]

/-- The compare-and-set of a thread that has just read the pointer succeeds. -/
theorem finishes_setGet {first last : A} {valFirst val : L} (hpc : s.pc t = .setGet first last valFirst)
    (hp : s.p last = some val) : s.Finishes t :=
  finishes_of_run (run_setGet hpc hp)
    (finishes_of_run (run_setCmpset (setPc_pc ..) hp) (finishes_checkin (setPc_pc ..)))

theorem finishes_setCmpset {first last : A} {valFirst val val' : L}
    (hpc : s.pc t = .setCmpset first last valFirst val) (hp : s.p last = some val') : s.Finishes t := by
  by_cases same : s.p last = some val
  · exact finishes_of_run (run_setCmpset hpc same) (finishes_checkin (setPc_pc ..))
  · have fail : run s t = some (s.setPc t (.setGet first last valFirst)) := by simp only [run, hpc, if_neg same]
    exact finishes_of_run fail (finishes_setGet (setPc_pc ..) hp)

theorem finishes_checkoutGet {first last : A} {val val' : L} (hpc : s.pc t = .checkoutGet first last)
    (hne : first ≠ last) (hp : s.p first = some val) (hp' : s.p last = some val') : s.Finishes t := by
  have out : ((s.setPc t (.checkoutCmpset first last val)).store first none).p last = some val' :=
    (Function.update_of_ne hne.symm ..).trans hp'
  exact finishes_of_run (run_checkoutGet hpc hp)
    (finishes_of_run (run_checkoutCmpset (setPc_pc ..) hp) (finishes_setGet (setPc_pc ..) out))

theorem finishes_checkoutCmpset {first last : A} {v val val' : L} (hpc : s.pc t = .checkoutCmpset first last v)
    (hne : first ≠ last) (hp : s.p first = some val) (hp' : s.p last = some val') : s.Finishes t := by
  by_cases same : s.p first = some v
  · have out : (s.store first none).p last = some val' := (Function.update_of_ne hne.symm ..).trans hp'
    exact finishes_of_run (run_checkoutCmpset hpc same) (finishes_setGet (setPc_pc ..) out)
  · have fail : run s t = some (s.setPc t (.checkoutGet first last)) := by simp only [run, hpc, if_neg same]
    exact finishes_of_run fail (finishes_checkoutGet (setPc_pc ..) hne hp hp')

/-- If no pointer is checked out, then any thread finishes. -/
theorem Inv.finishes_of_full (h : Inv present s) (full : ∀ a, ∃ val, s.p a = some val) (busy : s.pc t ≠ .idle) :
    s.Finishes t := by
  have hord := h.ordered t
  rcases hpc : s.pc t with _ | ⟨first, last⟩ | ⟨first, last, v⟩ | ⟨first, last, v⟩ | ⟨first, last, v, w⟩ |
    ⟨first, last, v⟩ <;> rw [hpc] at hord
  · exact absurd hpc busy
  · exact finishes_checkoutGet hpc (ne_of_lt hord) (full first).choose_spec (full last).choose_spec
  · exact finishes_checkoutCmpset hpc (ne_of_lt hord) (full first).choose_spec (full last).choose_spec
  · exact finishes_setGet hpc (full last).choose_spec
  · exact finishes_setCmpset hpc (full last).choose_spec
  · exact finishes_checkin hpc

/-- The thread that has the highest of the pointers that are checked out finishes. -/
theorem Inv.finishes_of_highest (h : Inv present s) {a : A} {val : L} (hheld : (s.pc t).held = some (a, val))
    (highest : ∀ b, a < b → ∃ val, s.p b = some val) : s.Finishes t := by
  have hord := h.ordered t
  rcases hpc : s.pc t with _ | ⟨first, last⟩ | ⟨first, last, v⟩ | ⟨first, last, v⟩ | ⟨first, last, v, w⟩ |
    ⟨first, last, v⟩ <;> rw [hpc] at hord hheld
  · cases hheld
  · cases hheld
  · cases hheld
  · obtain ⟨rfl, rfl⟩ := Prod.mk.inj (Option.some.inj hheld)
    exact finishes_setGet hpc (highest last hord).choose_spec
  · obtain ⟨rfl, rfl⟩ := Prod.mk.inj (Option.some.inj hheld)
    exact finishes_setCmpset hpc (highest last hord).choose_spec
  · exact finishes_checkin hpc

theorem Inv.progress [Fintype A] (h : Inv present s) (busy : s.pc t ≠ .idle) :
    ∃ t', s.pc t' ≠ .idle ∧ s.Finishes t' := by
  by_cases full : ∀ a, ∃ val, s.p a = some val
  · exact ⟨t, busy, h.finishes_of_full full busy⟩
  · have out : (Finset.univ.filter fun a => s.p a = none).Nonempty := by
      obtain ⟨a, ha⟩ := not_forall.1 full
      refine ⟨a, Finset.mem_filter.2 ⟨Finset.mem_univ a, ?_⟩⟩
      exact not_not.1 fun hne => ha (Option.ne_none_iff_exists'.1 hne)
    obtain ⟨a, ha, highest⟩ := Finset.exists_max_image _ id out
    obtain ⟨t', ht'⟩ := h.kept.holder a (Finset.mem_filter.1 ha).2
    refine ⟨t', fun idle => ?_, h.finishes_of_highest ht' fun b hb => Option.ne_none_iff_exists'.1 fun hb' => ?_⟩
    · rw [Function.comp_apply, idle] at ht'
      cases ht'
    · exact absurd (highest b (Finset.mem_filter.2 ⟨Finset.mem_univ b, hb'⟩)) (not_le.2 hb)

end Proof

/-! ### The calls that are made -/

/-- The pair of a call that has not yet set the higher pointer. -/
def Pc.pending : Pc A L → Multiset (A × A)
  | .checkoutGet first last => {(first, last)}
  | .checkoutCmpset first last _ => {(first, last)}
  | .setGet first last _ => {(first, last)}
  | .setCmpset first last _ _ => {(first, last)}
  | _ => 0

/-- The pair that a call swaps, the lower address first. -/
def Action.pair [LinearOrder A] : Action A T → Option (A × A)
  | .swap _ this x => if this < x then some (this, x) else some (x, this)
  | .run _ => none

/-- The pairs that have been swapped, and those that are going to be. -/
def State.pairs [Fintype T] (s : State A L T) : Multiset (A × A) := s.swapped + ∑ t, (s.pc t).pending

section Calls
variable [LinearOrder A] [DecidableEq T] [Fintype T] {s s' : State A L T} {t : T}

omit [LinearOrder A] in
/-- Only the thread that takes the step has another pair than before. -/
theorem pairs_eq {pc : Pc A L} {pairs : Multiset (A × A)} (hpc : s'.pc = Function.update s.pc t pc)
    (hpairs : s'.swapped + pc.pending = s.swapped + (s.pc t).pending + pairs) : s'.pairs = s.pairs + pairs := by
  have hrest : ∑ u ∈ Finset.univ.erase t, (s'.pc u).pending = ∑ u ∈ Finset.univ.erase t, (s.pc u).pending := by
    refine Finset.sum_congr rfl fun u hu => ?_
    rw [hpc, Function.update_of_ne (Finset.ne_of_mem_erase hu)]
  have hself : s'.pc t = pc := by rw [hpc, Function.update_self]
  rw [State.pairs, State.pairs, ← Finset.add_sum_erase _ _ (Finset.mem_univ t), hrest, hself, ← add_assoc, hpairs,
    ← Finset.add_sum_erase _ _ (Finset.mem_univ t), add_right_comm, add_assoc _ _ (∑ _ ∈ _, _)]

variable [DecidableEq L]

theorem pairs_run (h : run s t = some s') : s'.pairs = s.pairs := by
  rw [← add_zero s.pairs]
  rw [run] at h
  rcases hpc : s.pc t with _ | ⟨first, last⟩ | ⟨first, last, val⟩ | ⟨first, last, valFirst⟩ |
    ⟨first, last, valFirst, val⟩ | ⟨first, last, valLast⟩ <;> simp only [hpc] at h
  · cases h
  · split at h <;> obtain rfl := Option.some.inj h
    · exact (add_zero _).symm
    · exact pairs_eq rfl (by rw [hpc, add_zero]; rfl)
  · split_ifs at h <;> obtain rfl := Option.some.inj h
    · exact pairs_eq rfl (by rw [hpc, add_zero]; rfl)
    · exact pairs_eq rfl (by rw [hpc, add_zero]; rfl)
  · split at h <;> obtain rfl := Option.some.inj h
    · exact (add_zero _).symm
    · exact pairs_eq rfl (by rw [hpc, add_zero]; rfl)
  · split_ifs at h <;> obtain rfl := Option.some.inj h
    · -- the pair is written down
      refine pairs_eq rfl ?_
      rw [hpc, add_zero, ← Multiset.coe_add, add_assoc]
      exact congrArg _ (add_zero _)
    · exact pairs_eq rfl (by rw [hpc, add_zero]; rfl)
  · obtain rfl := Option.some.inj h
    exact pairs_eq rfl (by rw [hpc, add_zero]; rfl)

theorem pairs_step {a : Action A T} (h : step s a = some s') : s'.pairs = s.pairs + a.pair.toList := by
  cases a with
  | swap t this x =>
    simp only [step, Option.ite_none_right_eq_some] at h
    obtain ⟨⟨idle, -⟩, h⟩ := h
    obtain rfl := Option.some.inj h
    refine pairs_eq rfl ?_
    rw [idle, swap, Action.pair]
    split_ifs <;> exact congrArg₂ _ (add_zero _).symm rfl
  | run t => rw [pairs_run h, Action.pair, Option.toList_none, Multiset.coe_nil, add_zero]

theorem pairs_exec {actions : List (Action A T)} (h : exec step s actions = some s') :
    s'.pairs = s.pairs + actions.filterMap Action.pair := by
  induction actions generalizing s with
  | nil =>
    cases h
    exact (add_zero _).symm
  | cons a actions ih =>
    obtain ⟨s₁, hs₁, h⟩ := exec_cons_eq_some.1 h
    rw [ih h, pairs_step hs₁, add_assoc, Multiset.coe_add, List.filterMap_cons]
    cases a.pair <;> rfl

/-- At rest, all calls have been made, each once. -/
theorem swapped_perm {present : A → L} {actions : List (Action A T)}
    (h : exec step (State.new present) actions = some s) (idle : ∀ t, s.pc t = .idle) :
    s.swapped.Perm (actions.filterMap Action.pair) := by
  have hpairs := pairs_exec h
  have hnone : ∀ s : State A L T, (∀ t, s.pc t = .idle) → s.pairs = s.swapped := by
    intro s idle
    rw [State.pairs, Finset.sum_eq_zero fun t _ => by rw [idle t]; rfl, add_zero]
  rw [hnone s idle, hnone _ fun _ => rfl] at hpairs
  exact Multiset.coe_eq_coe.1 (hpairs.trans (zero_add _))

end Calls

/-! ### The result -/

/-- CORRECT: whatever the order of the steps, the swaps are atomic, lose no location and do not wait for each
    other in a circle. -/
theorem swaps_linearized [LinearOrder A] [Fintype A] [Fintype T] [DecidableEq L] [DecidableEq T] (present : A → L)
    {actions : List (Action A T)} {s : State A L T} (h : exec step (State.new present) actions = some s) :
    Linearized present s := by
  have inv : Inv present s := exec_inv (fun _ _ _ hi hs => (move_of_step hs).inv hi) (inv_new present) h
  refine ⟨?_, fun idle a => ?_, fun t busy => inv.progress busy, inv.acyclic⟩
  · rw [← map_placement present s.swapped]
    exact inv.kept.conserved
  · cases ha : s.p a with
    | none =>
      obtain ⟨t, ht⟩ := inv.kept.holder a ha
      rw [Function.comp_apply, idle t] at ht
      cases ht
    | some val => rw [inv.kept.full a val ha]

/-- Two threads that swap 0 with 2 and 1 with 2: the second is faster, and the first has to read again. -/
theorem swaps_linearized_two : ∃ s : State (Fin 3) (Fin 3) (Fin 2),
    exec step (State.new id) [.swap 0 2 0, .run 0, .run 0, .swap 1 1 2, .run 1, .run 1, .run 1, .run 0, .run 1,
      .run 0, .run 0, .run 0, .run 0, .run 1] = some s ∧
    (s.p 0, s.p 1, s.p 2) = (some 1, some 2, some 0) ∧ Linearized id s := by
  obtain ⟨s, hs, hp⟩ := Option.map_eq_some_iff.1 (by decide : (exec step (State.new id) [.swap 0 2 0, .run 0, .run 0,
    .swap 1 1 2, .run 1, .run 1, .run 1, .run 0, .run 1, .run 0, .run 0, .run 0, .run 0, .run 1]).map
      (fun s : State (Fin 3) (Fin 3) (Fin 2) => (s.p 0, s.p 1, s.p 2)) = some (some 1, some 2, some 0))
  exact ⟨s, hs, hp, swaps_linearized id hs⟩

end Turkey.AtomicPtr
