import Mathlib.Data.Finset.Card
import Mathlib.Data.Finset.Insert
import Mathlib.Order.Interval.Set.Disjoint
import Mathlib.Tactic
import Turkey.Schemes.Run
import Turkey.Schemes.Packing

/-! Memory buffers (`mbuffer.c`).

    A buffer is a pointer, a length and a control block; the control block counts the buffers that refer
    to it and keeps the pointer that `free` has to be called with. `clone` aliases a whole buffer, `split`
    cuts one in two that share the block, `copy` starts a new block, `realloc` moves the block of an
    unshared buffer, and `free` gives the memory back when it was the last.

        create: i = 1      clone, split: i++      free: i--, and free(ptr) when i = 0

    What `malloc` and `realloc` return is part of the call. A handle names the `mbuffer_t` a call works on:
    one that holds a buffer is live from the call that sets it up to its `free`, and a call that sets up a
    buffer is given a structure that holds none (the check `mbuffer_split` makes of its `m2` when the
    checks are compiled in). The contents of the memory play no part here.

    The counter is an `unsigned int` and nothing stops it from wrapping, so the results are about the runs
    in which no block comes to be shared by 2^32 buffers; `clones_wrap` is a run in which one does. -/

namespace Turkey.Mbuffers
open Turkey.Packing

/-- `mcb_t`: the reference counter and the pointer that came from `malloc`. -/
structure Mcb where
  i : UInt32
  ptr : ℕ
  deriving DecidableEq

/-- `mbuffer_t`. The control block is given by its number. -/
structure Mbuffer where
  ptr : ℕ
  n : ℕ
  mcb : ℕ
  deriving DecidableEq

/-- The control blocks (`next` is the first number not yet used for one), what the `mbuffer_t` structures
    hold, which of them are live, and the blocks whose memory was given back, in that order. -/
structure State where
  mcb : ℕ → Mcb
  next : ℕ
  buf : ℕ → Mbuffer
  live : Finset ℕ
  released : List ℕ

/-- Before the first call. -/
def State.new : State := ⟨fun _ => ⟨0, 0⟩, 0, fun _ => ⟨0, 0, 0⟩, ∅, []⟩

/-- A new control block for `size` bytes at `p`, and `m` as its one buffer. -/
def State.created (s : State) (m p size : ℕ) : State :=
  ⟨Function.update s.mcb s.next ⟨1, p⟩, s.next + 1, Function.update s.buf m ⟨p, size, s.next⟩,
    insert m s.live, s.released⟩

/-- `t` becomes a further buffer of the block of `m`, with the same extent. -/
def State.cloned (s : State) (m t : ℕ) : State :=
  ⟨Function.update s.mcb (s.buf m).mcb
      { s.mcb (s.buf m).mcb with i := (s.mcb (s.buf m).mcb).i + 1 },
    s.next, Function.update s.buf t (s.buf m), insert t s.live, s.released⟩

/-- `m` and its block are now `size` bytes at `p`. -/
def State.moved (s : State) (m p size : ℕ) : State :=
  ⟨Function.update s.mcb (s.buf m).mcb { s.mcb (s.buf m).mcb with ptr := p }, s.next,
    Function.update s.buf m ⟨p, size, (s.buf m).mcb⟩, s.live, s.released⟩

/-- `m1` keeps the first `split` bytes and `m2` becomes a buffer of the same block for the others. -/
def State.divided (s : State) (m1 m2 split : ℕ) : State :=
  ⟨Function.update s.mcb (s.buf m1).mcb
      { s.mcb (s.buf m1).mcb with i := (s.mcb (s.buf m1).mcb).i + 1 },
    s.next,
    Function.update
      (Function.update s.buf m2
        ⟨(s.buf m1).ptr + split, (s.buf m1).n - split, (s.buf m1).mcb⟩)
      m1 ⟨(s.buf m1).ptr, split, (s.buf m1).mcb⟩,
    insert m2 s.live, s.released⟩

/-- `mbuffer_create`. `ptr` is what the first `malloc` returns and `mcb` whether the second succeeds. -/
def mbufferCreate (s : State) (m size : ℕ) (ptr : Option ℕ) (mcb : Bool) : Option (State × ℤ) :=
  if 0 < size then
    match ptr, mcb with
    | none, _ => some (s, -1)
    | some _, false => some (s, -1)
    | some p, true => some (s.created m p size, 0)
  else none

/-- `mbuffer_clone`. `temp` is the structure that `malloc` returns; so is the result. -/
def mbufferClone (s : State) (m : ℕ) (temp : Option ℕ) : Option (State × Option ℕ) :=
  match temp with
  | none => some (s, none)
  | some t => if 1 ≤ (s.mcb (s.buf m).mcb).i then some (s.cloned m t, some t) else none

/-- `mbuffer_copy`: a structure and a buffer of its own. -/
def mbufferCopy (s : State) (m : ℕ) (temp ptr : Option ℕ) (mcb : Bool) : Option (State × Option ℕ) :=
  if 1 ≤ (s.buf m).n then
    match temp with
    | none => some (s, none)
    | some t => (mbufferCreate s t (s.buf m).n ptr mcb).map fun (s', rv) =>
        if rv ≠ 0 then (s', none) else (s', some t)
  else none

/-- `mbuffer_free`. -/
def mbufferFree (s : State) (m : ℕ) : State :=
  let b := (s.buf m).mcb
  let ref := (s.mcb b).i - 1
  if ref = 0 then
    -- `free(m->mcb->ptr)`, then the block itself
    ⟨Function.update s.mcb b ⟨0, 0⟩, s.next, s.buf, s.live.erase m, s.released ++ [b]⟩
  else
    ⟨Function.update s.mcb b { s.mcb b with i := ref }, s.next, s.buf, s.live.erase m, s.released⟩

/-- `mbuffer_realloc`. `r` is what `realloc` returns. -/
def mbufferRealloc (s : State) (m size : ℕ) (r : Option ℕ) : Option (State × ℤ) :=
  if 0 < size then
    if (s.mcb (s.buf m).mcb).i > 1 then some (s, -1)
    else if (s.buf m).ptr ≠ (s.mcb (s.buf m).mcb).ptr then some (s, -1)
    else match r with
      | none => some (s, -1)
      | some p => some (s.moved m p size, 0)
  else none

/-- `mbuffer_split`. -/
def mbufferSplit (s : State) (m1 m2 split : ℕ) : Option (State × ℤ) :=
  if 0 < split ∧ split < (s.buf m1).n ∧ 1 ≤ (s.mcb (s.buf m1).mcb).i then some (s.divided m1 m2 split, 0)
  else none

/-- The calls, with what the C library answers them. -/
inductive Op where
  | create (m size : ℕ) (ptr : Option ℕ) (mcb : Bool)
  | clone (m : ℕ) (temp : Option ℕ)
  | copy (m : ℕ) (temp ptr : Option ℕ) (mcb : Bool)
  | free (m : ℕ)
  | realloc (m size : ℕ) (r : Option ℕ)
  | split (m1 m2 split : ℕ)
  deriving DecidableEq

/-- One call. There is none when it uses a buffer that is not live, when it is to set up a buffer in a
    structure that holds one, or when one of its assertions fails. -/
def step (s : State) : Op → Option State
  | .create m size ptr mcb =>
      if m ∈ s.live then none else (mbufferCreate s m size ptr mcb).map Prod.fst
  | .clone m temp =>
      if m ∈ s.live ∧ ∀ t ∈ temp, t ∉ s.live then (mbufferClone s m temp).map Prod.fst else none
  | .copy m temp ptr mcb =>
      if m ∈ s.live ∧ ∀ t ∈ temp, t ∉ s.live then (mbufferCopy s m temp ptr mcb).map Prod.fst else none
  | .free m => if m ∈ s.live then some (mbufferFree s m) else none
  | .realloc m size r => if m ∈ s.live then (mbufferRealloc s m size r).map Prod.fst else none
  | .split m1 m2 split =>
      if m1 ∈ s.live ∧ m2 ∉ s.live then (mbufferSplit s m1 m2 split).map Prod.fst else none

/-- How many live buffers refer to a control block. -/
def refs (s : State) (b : ℕ) : ℕ := (s.live.filter fun h => (s.buf h).mcb = b).card

/-- A further reference to the block of the buffer that is cloned or split does not wrap its counter. -/
def NoWrap (s : State) : Op → Prop
  | .clone m (some _) => refs s (s.buf m).mcb + 1 < 2 ^ 32
  | .split m1 _ _ => refs s (s.buf m1).mcb + 1 < 2 ^ 32
  | _ => True

instance (s : State) : ∀ op, Decidable (NoWrap s op)
  | .clone m (some _) => inferInstanceAs (Decidable (refs s (s.buf m).mcb + 1 < 2 ^ 32))
  | .split m1 _ _ => inferInstanceAs (Decidable (refs s (s.buf m1).mcb + 1 < 2 ^ 32))
  | .clone _ none | .create .. | .copy .. | .free _ | .realloc .. => inferInstanceAs (Decidable True)

/-! ### What each call can do -/

theorem mbufferCreate_cases {s s' : State} {m size : ℕ} {ptr : Option ℕ} {mcb : Bool} {v : ℤ}
    (h : mbufferCreate s m size ptr mcb = some (s', v)) :
    (s' = s ∧ v = -1) ∨ ∃ p, s' = s.created m p size ∧ v = 0 := by
  unfold mbufferCreate at h
  split at h
  · rcases ptr with _ | p
    · cases h
      exact .inl ⟨rfl, rfl⟩
    · cases mcb
      · cases h
        exact .inl ⟨rfl, rfl⟩
      · cases h
        exact .inr ⟨p, rfl, rfl⟩
  · cases h

theorem mbufferClone_cases {s s' : State} {m : ℕ} {temp v : Option ℕ}
    (h : mbufferClone s m temp = some (s', v)) :
    (s' = s ∧ v = none) ∨ ∃ t, temp = some t ∧ s' = s.cloned m t ∧ v = some t := by
  unfold mbufferClone at h
  rcases temp with _ | t
  · cases h
    exact .inl ⟨rfl, rfl⟩
  · dsimp only at h
    split at h
    · cases h
      exact .inr ⟨t, rfl, rfl, rfl⟩
    · cases h

theorem mbufferCopy_cases {s s' : State} {m : ℕ} {temp ptr v : Option ℕ} {mcb : Bool}
    (h : mbufferCopy s m temp ptr mcb = some (s', v)) :
    (s' = s ∧ v = none) ∨ ∃ t p, temp = some t ∧ s' = s.created t p (s.buf m).n ∧ v = some t := by
  unfold mbufferCopy at h
  split at h
  · rcases temp with _ | t
    · cases h
      exact .inl ⟨rfl, rfl⟩
    · obtain ⟨⟨s1, rv⟩, hcreate, hv⟩ := Option.map_eq_some_iff.mp h
      rcases mbufferCreate_cases hcreate with ⟨rfl, rfl⟩ | ⟨p, rfl, rfl⟩
      · cases hv
        exact .inl ⟨rfl, rfl⟩
      · cases hv
        exact .inr ⟨t, p, rfl, rfl, rfl⟩
  · cases h

theorem mbufferRealloc_cases {s s' : State} {m size : ℕ} {r : Option ℕ} {v : ℤ}
    (h : mbufferRealloc s m size r = some (s', v)) :
    (s' = s ∧ v = -1) ∨ ∃ p, r = some p ∧ s' = s.moved m p size ∧ v = 0 ∧
      (s.mcb (s.buf m).mcb).i ≤ 1 ∧ (s.buf m).ptr = (s.mcb (s.buf m).mcb).ptr := by
  unfold mbufferRealloc at h
  split at h
  · split at h
    · cases h
      exact .inl ⟨rfl, rfl⟩
    · split at h
      · cases h
        exact .inl ⟨rfl, rfl⟩
      · rename_i hshared horiginal
        rcases r with _ | p
        · cases h
          exact .inl ⟨rfl, rfl⟩
        · cases h
          exact .inr ⟨p, rfl, rfl, rfl, UInt32.not_lt.mp hshared, not_not.mp horiginal⟩
  · cases h

theorem mbufferSplit_cases {s s' : State} {m1 m2 split : ℕ} {v : ℤ}
    (h : mbufferSplit s m1 m2 split = some (s', v)) :
    0 < split ∧ split < (s.buf m1).n ∧ s' = s.divided m1 m2 split ∧ v = 0 := by
  unfold mbufferSplit at h
  split at h
  · rename_i hassert
    cases h
    exact ⟨hassert.1, hassert.2.1, rfl, rfl⟩
  · cases h

/-- What a call can do: a call whose `malloc` or `realloc` fails, or a `realloc` that is refused, leaves
    everything as it is. -/
inductive Effect (s : State) : Op → State → Prop where
  | createFails {m size ptr mcb} : Effect s (.create m size ptr mcb) s
  | create {m size ptr mcb p} : m ∉ s.live → Effect s (.create m size ptr mcb) (s.created m p size)
  | cloneFails {m temp} : Effect s (.clone m temp) s
  | clone {m t} : m ∈ s.live → t ∉ s.live → Effect s (.clone m (some t)) (s.cloned m t)
  | copyFails {m temp ptr mcb} : Effect s (.copy m temp ptr mcb) s
  | copy {m t ptr mcb p} : t ∉ s.live →
      Effect s (.copy m (some t) ptr mcb) (s.created t p (s.buf m).n)
  | free {m} : m ∈ s.live → Effect s (.free m) (mbufferFree s m)
  | reallocFails {m size r} : mbufferRealloc s m size r = some (s, -1) → Effect s (.realloc m size r) s
  | realloc {m size p} : mbufferRealloc s m size (some p) = some (s.moved m p size, 0) →
      Effect s (.realloc m size (some p)) (s.moved m p size)
  | split {m1 m2 split} : m1 ∈ s.live → m2 ∉ s.live → 0 < split → split < (s.buf m1).n →
      Effect s (.split m1 m2 split) (s.divided m1 m2 split)

theorem step_effect {s s' : State} {op : Op} (h : step s op = some s') : Effect s op s' := by
  cases op with
  | create m size ptr mcb =>
    simp only [step, Option.ite_none_left_eq_some, Option.map_eq_some_iff] at h
    obtain ⟨hm, ⟨s1, v⟩, hcall, rfl⟩ := h
    rcases mbufferCreate_cases hcall with ⟨rfl, -⟩ | ⟨p, rfl, -⟩
    · exact .createFails
    · exact .create hm
  | clone m temp =>
    simp only [step, Option.ite_none_right_eq_some, Option.map_eq_some_iff] at h
    obtain ⟨⟨hm, ht⟩, ⟨s1, v⟩, hcall, rfl⟩ := h
    rcases mbufferClone_cases hcall with ⟨rfl, -⟩ | ⟨t, rfl, rfl, -⟩
    · exact .cloneFails
    · exact .clone hm (ht t rfl)
  | copy m temp ptr mcb =>
    simp only [step, Option.ite_none_right_eq_some, Option.map_eq_some_iff] at h
    obtain ⟨⟨-, ht⟩, ⟨s1, v⟩, hcall, rfl⟩ := h
    rcases mbufferCopy_cases hcall with ⟨rfl, -⟩ | ⟨t, p, rfl, rfl, -⟩
    · exact .copyFails
    · exact .copy (ht t rfl)
  | free m =>
    simp only [step, Option.ite_none_right_eq_some, Option.some.injEq] at h
    obtain ⟨hm, rfl⟩ := h
    exact .free hm
  | realloc m size r =>
    simp only [step, Option.ite_none_right_eq_some, Option.map_eq_some_iff] at h
    obtain ⟨-, ⟨s1, v⟩, hcall, rfl⟩ := h
    rcases mbufferRealloc_cases hcall with ⟨rfl, rfl⟩ | ⟨p, rfl, rfl, rfl, -⟩
    · exact .reallocFails hcall
    · exact .realloc hcall
  | split m1 m2 split =>
    simp only [step, Option.ite_none_right_eq_some, Option.map_eq_some_iff] at h
    obtain ⟨⟨h1, h2⟩, ⟨s1, v⟩, hcall, rfl⟩ := h
    obtain ⟨hpos, hlt, rfl, -⟩ := mbufferSplit_cases hcall
    exact .split h1 h2 hpos hlt

/-! ### What a free leaves -/

@[simp] theorem mbufferFree_live (s : State) (m : ℕ) : (mbufferFree s m).live = s.live.erase m := by
  dsimp only [mbufferFree]
  split <;> rfl

@[simp] theorem mbufferFree_buf (s : State) (m : ℕ) : (mbufferFree s m).buf = s.buf := by
  dsimp only [mbufferFree]
  split <;> rfl

@[simp] theorem mbufferFree_next (s : State) (m : ℕ) : (mbufferFree s m).next = s.next := by
  dsimp only [mbufferFree]
  split <;> rfl

theorem mbufferFree_i (s : State) (m c : ℕ) : ((mbufferFree s m).mcb c).i
    = if c = (s.buf m).mcb then (s.mcb (s.buf m).mcb).i - 1 else (s.mcb c).i := by
  dsimp only [mbufferFree]
  rcases eq_or_ne c (s.buf m).mcb with rfl | hc
  · split
    · simp_all
    · simp
  · split <;> simp [hc]

theorem mbufferFree_released (s : State) (m : ℕ) : (mbufferFree s m).released
    = s.released ++ if (s.mcb (s.buf m).mcb).i - 1 = 0 then [(s.buf m).mcb] else [] := by
  dsimp only [mbufferFree]
  split
  · rfl
  · rw [List.append_nil]

/-! ### The references to a block -/

/-- A buffer joins the live ones: its block has one more reference. -/
theorem refs_insert {s s' : State} {t : ℕ} (ht : t ∉ s.live) (hlive : s'.live = insert t s.live)
    (hbuf : ∀ h ∈ s.live, (s'.buf h).mcb = (s.buf h).mcb) (c : ℕ) :
    refs s' c = refs s c + if c = (s'.buf t).mcb then 1 else 0 := by
  have hold : (s.live.filter fun h => (s'.buf h).mcb = c) = s.live.filter fun h => (s.buf h).mcb = c :=
    Finset.filter_congr fun h hh => by rw [hbuf h hh]
  simp only [refs, hlive, Finset.filter_insert, hold]
  rcases eq_or_ne c (s'.buf t).mcb with rfl | hc
  · rw [if_pos rfl, if_pos rfl, Finset.card_insert_of_notMem]
    exact fun hmem => ht (Finset.mem_of_mem_filter t hmem)
  · rw [if_neg (Ne.symm hc), if_neg hc, Nat.add_zero]

/-- A buffer leaves the live ones: its block has one reference less. -/
theorem refs_erase {s s' : State} {m : ℕ} (hm : m ∈ s.live) (hlive : s'.live = s.live.erase m)
    (hbuf : s'.buf = s.buf) (c : ℕ) :
    refs s' c + (if c = (s.buf m).mcb then 1 else 0) = refs s c := by
  simp only [refs, hlive, hbuf, Finset.filter_erase]
  rcases eq_or_ne c (s.buf m).mcb with rfl | hc
  · have hmem : m ∈ s.live.filter fun h => (s.buf h).mcb = (s.buf m).mcb :=
      Finset.mem_filter.mpr ⟨hm, rfl⟩
    rw [if_pos rfl]
    exact Finset.card_erase_add_one hmem
  · rw [if_neg hc, Finset.erase_eq_of_notMem, Nat.add_zero]
    intro hmem
    exact hc (Finset.mem_filter.mp hmem).2.symm

/-- A live buffer is a reference to its block. -/
theorem refs_pos {s : State} {m : ℕ} (hm : m ∈ s.live) : 1 ≤ refs s (s.buf m).mcb :=
  Finset.card_pos.mpr ⟨m, Finset.mem_filter.mpr ⟨hm, rfl⟩⟩

/-! ### The counters are exact -/

/-- The counter of every block is the number of live buffers that refer to it, only blocks in use are
    referred to, and the memory of a block was given back once if no buffer is left of it and not
    otherwise. -/
structure Counted (s : State) : Prop where
  counter : ∀ b, (s.mcb b).i.toNat = refs s b
  unused : ∀ b, s.next ≤ b → refs s b = 0
  ledger : ∀ b, s.released.count b = if b < s.next ∧ refs s b = 0 then 1 else 0

theorem counted_new : Counted State.new where
  counter _ := rfl
  unused _ _ := rfl
  ledger b := by rw [if_neg fun h => absurd h.1 (Nat.not_lt_zero b)]; rfl

/-- The block of a live buffer is in use. -/
theorem Counted.lt_next {s : State} (hI : Counted s) {m : ℕ} (hm : m ∈ s.live) :
    (s.buf m).mcb < s.next := by
  by_contra hle
  have hpos := refs_pos hm
  rw [hI.unused _ (by omega)] at hpos
  omega

/-- The assertion `m->mcb->i>=1` holds of every live buffer. -/
theorem Counted.one_le {s : State} (hI : Counted s) {m : ℕ} (hm : m ∈ s.live) :
    1 ≤ (s.mcb (s.buf m).mcb).i := by
  rw [UInt32.le_iff_toNat_le, hI.counter]
  exact refs_pos hm

/-- A new block with one buffer. -/
theorem Counted.create {s : State} (hI : Counted s) {t p size : ℕ} (ht : t ∉ s.live) :
    Counted (s.created t p size) := by
  have hbuf : ∀ h ∈ s.live, ((s.created t p size).buf h).mcb = (s.buf h).mcb :=
    fun h hh => by simp [State.created, ne_of_mem_of_not_mem hh ht]
  have hzero := hI.unused s.next le_rfl
  refine ⟨fun b => ?_, fun b hb => ?_, fun b => ?_⟩
  all_goals rw [refs_insert ht rfl hbuf]
  all_goals simp only [State.created, Function.update_self]
  · rcases eq_or_ne b s.next with rfl | hb
    · simp [hzero]
    · simp [hb, hI.counter]
  · dsimp only [State.created] at hb
    rw [hI.unused b (by omega), if_neg (by omega)]
  · rw [hI.ledger]
    rcases eq_or_ne b s.next with rfl | hb
    · simp
    · have : b < s.next + 1 ↔ b < s.next := by omega
      simp only [if_neg hb, Nat.add_zero, this]

/-- One more buffer of a block, when its counter does not wrap. -/
theorem Counted.share {s s' : State} (hI : Counted s) {m t : ℕ} (hm : m ∈ s.live) (ht : t ∉ s.live)
    (hroom : refs s (s.buf m).mcb + 1 < 2 ^ 32)
    (hmcb : s'.mcb = Function.update s.mcb (s.buf m).mcb
      { s.mcb (s.buf m).mcb with i := (s.mcb (s.buf m).mcb).i + 1 })
    (hnext : s'.next = s.next) (hlive : s'.live = insert t s.live)
    (hbuf : ∀ h ∈ s.live, (s'.buf h).mcb = (s.buf h).mcb) (htm : (s'.buf t).mcb = (s.buf m).mcb)
    (hreleased : s'.released = s.released) : Counted s' := by
  have hlt := hI.lt_next hm
  have hpos := refs_pos hm
  refine ⟨fun b => ?_, fun b hb => ?_, fun b => ?_⟩
  all_goals rw [refs_insert ht hlive hbuf, htm]
  · rw [hmcb]
    rcases eq_or_ne b (s.buf m).mcb with rfl | hb
    · simp only [Function.update_self, UInt32.toNat_add, hI.counter, if_true]
      exact Nat.mod_eq_of_lt hroom
    · simp [hb, hI.counter]
  · rw [hnext] at hb
    rw [hI.unused b hb, if_neg (by omega)]
  · rw [hreleased, hnext, hI.ledger]
    rcases eq_or_ne b (s.buf m).mcb with rfl | hb
    · rw [if_neg (by omega), if_neg (by omega)]
    · rw [if_neg hb, Nat.add_zero]

theorem Counted.clone {s : State} (hI : Counted s) {m t : ℕ} (hm : m ∈ s.live) (ht : t ∉ s.live)
    (hroom : refs s (s.buf m).mcb + 1 < 2 ^ 32) : Counted (s.cloned m t) := by
  refine hI.share hm ht hroom rfl rfl rfl (fun h hh => ?_) ?_ rfl
  · simp [State.cloned, ne_of_mem_of_not_mem hh ht]
  · simp [State.cloned]

theorem Counted.split {s : State} (hI : Counted s) {m1 m2 split : ℕ} (h1 : m1 ∈ s.live)
    (h2 : m2 ∉ s.live) (hroom : refs s (s.buf m1).mcb + 1 < 2 ^ 32) :
    Counted (s.divided m1 m2 split) := by
  refine hI.share h1 h2 hroom rfl rfl rfl (fun h hh => ?_) ?_ rfl
  · dsimp only [State.divided]
    rcases eq_or_ne h m1 with rfl | hne
    · rw [Function.update_self]
    · rw [Function.update_of_ne hne, Function.update_of_ne (ne_of_mem_of_not_mem hh h2)]
  · dsimp only [State.divided]
    rw [Function.update_of_ne (ne_of_mem_of_not_mem h1 h2).symm, Function.update_self]

/-- The free of a live buffer takes the counter to zero exactly when it is the last of its block. -/
theorem Counted.last_iff {s : State} (hI : Counted s) {m : ℕ} (hm : m ∈ s.live) :
    (s.mcb (s.buf m).mcb).i - 1 = 0 ↔ refs s (s.buf m).mcb = 1 := by
  have hpos := refs_pos hm
  rw [← UInt32.toNat_inj, UInt32.toNat_sub_of_le _ _ (hI.one_le hm), hI.counter]
  change refs s (s.buf m).mcb - 1 = 0 ↔ _
  omega

/-- One buffer less; the memory goes with the last of them. -/
theorem Counted.free {s : State} (hI : Counted s) {m : ℕ} (hm : m ∈ s.live) :
    Counted (mbufferFree s m) := by
  have hlt := hI.lt_next hm
  have hpos := refs_pos hm
  have hrefs := refs_erase hm (mbufferFree_live s m) (mbufferFree_buf s m)
  refine ⟨fun b => ?_, fun b hb => ?_, fun b => ?_⟩
  · have hb := hrefs b
    rw [mbufferFree_i]
    rcases eq_or_ne b (s.buf m).mcb with rfl | hne
    · rw [if_pos rfl] at hb
      rw [if_pos rfl, UInt32.toNat_sub_of_le _ _ (hI.one_le hm), hI.counter, ← hb]
      rfl
    · rw [if_neg hne] at hb ⊢
      rw [hI.counter, ← hb, Nat.add_zero]
  · rw [mbufferFree_next] at hb
    have := hrefs b
    rw [hI.unused b hb] at this
    omega
  · have hb := hrefs b
    rw [mbufferFree_released, mbufferFree_next, List.count_append, hI.ledger]
    simp only [hI.last_iff hm]
    rcases eq_or_ne b (s.buf m).mcb with rfl | hne
    · rw [if_pos rfl] at hb
      rw [if_neg (by omega), Nat.zero_add]
      by_cases hlast : refs s (s.buf m).mcb = 1
      · rw [if_pos hlast, if_pos ⟨hlt, by omega⟩, List.count_singleton_self]
      · rw [if_neg hlast, if_neg (by omega), List.count_nil]
    · rw [if_neg hne, Nat.add_zero] at hb
      have hother : (if refs s (s.buf m).mcb = 1 then [(s.buf m).mcb] else []).count b = 0 := by
        split
        · exact List.count_eq_zero.mpr (by simpa using hne)
        · rfl
      rw [hother, hb, Nat.add_zero]

/-- The block of an unshared buffer moves. -/
theorem Counted.realloc {s : State} (hI : Counted s) {m p size : ℕ} : Counted (s.moved m p size) := by
  have hsame : ∀ h, ((s.moved m p size).buf h).mcb = (s.buf h).mcb := by
    intro h
    rcases eq_or_ne h m with rfl | hne
    · simp [State.moved]
    · simp [State.moved, hne]
  have hrefs : ∀ c, refs (s.moved m p size) c = refs s c := by
    intro c
    simp only [refs, hsame]
    rfl
  refine ⟨fun b => ?_, fun b hb => ?_, fun b => ?_⟩
  all_goals rw [hrefs]
  · rw [← hI.counter b, State.moved]
    rcases eq_or_ne b (s.buf m).mcb with rfl | hne
    · simp
    · simp [hne]
  · exact hI.unused b hb
  · exact hI.ledger b

/-- Every call that does not wrap a counter keeps the counters exact. -/
theorem counted_step (s : State) (op : Op) (s' : State) (hI : Counted s) (hG : NoWrap s op)
    (h : step s op = some s') : Counted s' := by
  cases step_effect h with
  | createFails | cloneFails | copyFails | reallocFails => exact hI
  | create hm => exact hI.create hm
  | clone hm ht => exact hI.clone hm ht hG
  | copy ht => exact hI.create ht
  | free hm => exact hI.free hm
  | realloc => exact hI.realloc
  | split h1 h2 => exact hI.split h1 h2 hG

/-- The blocks of which a call gives the memory back: that of a buffer that is freed as the last one. -/
def gives (s : State) : Op → List ℕ
  | .free m => if refs s (s.buf m).mcb = 1 then [(s.buf m).mcb] else []
  | _ => []

theorem released_step {s s' : State} {op : Op} (hI : Counted s) (h : step s op = some s') :
    s'.released = s.released ++ gives s op := by
  cases step_effect h with
  | free hm =>
    rw [mbufferFree_released, gives]
    simp only [hI.last_iff hm]
  | _ => exact (List.append_nil _).symm

/-- A call of `mbuffer_realloc` on a live buffer succeeds on an unshared original buffer, or returns -1
    and changes nothing. -/
theorem realloc_outcome {s s' : State} {m size : ℕ} {r : Option ℕ} {v : ℤ} (hI : Counted s)
    (hm : m ∈ s.live) (h : mbufferRealloc s m size r = some (s', v)) :
    (v = 0 ∧ refs s (s.buf m).mcb = 1 ∧ (s.buf m).ptr = (s.mcb (s.buf m).mcb).ptr) ∨
      (v = -1 ∧ s' = s) := by
  rcases mbufferRealloc_cases h with ⟨rfl, rfl⟩ | ⟨p, -, -, rfl, hle, hptr⟩
  · exact .inr ⟨rfl, rfl⟩
  · have hpos := refs_pos hm
    rw [UInt32.le_iff_toNat_le, hI.counter] at hle
    exact .inl ⟨rfl, le_antisymm hle hpos, hptr⟩

/-! ### The pieces of a buffer -/

/-- The addresses of a buffer. -/
def extent (s : State) (m : ℕ) : Set ℕ := Set.Ico (s.buf m).ptr ((s.buf m).ptr + (s.buf m).n)

/-- The live pieces obtained from one buffer by splits alone, and whether all there ever were are live. -/
structure Track where
  pieces : Finset ℕ
  whole : Bool

/-- A buffer is its own first piece. -/
def Track.of (m : ℕ) : Track := ⟨{m}, true⟩

/-- A split of a piece makes one more. A piece that is freed is gone, and one that was resized does not
    come from splits alone any more. -/
def track (s : State) (t : Track) : Op → Track
  | .split m1 m2 _ => if m1 ∈ t.pieces then ⟨insert m2 t.pieces, t.whole⟩ else t
  | .free m => if m ∈ t.pieces then ⟨t.pieces.erase m, false⟩ else t
  | .realloc m size r =>
      if m ∈ t.pieces ∧ (mbufferRealloc s m size r).map Prod.snd = some 0 then ⟨t.pieces.erase m, false⟩
      else t
  | _ => t

/-- A call beside which the pieces are kept. -/
def trackedStep (x : State × Track) (op : Op) : Option (State × Track) :=
  (step x.1 op).map fun s' => (s', track x.1 x.2 op)

/-- The pieces are live, lie inside the buffer they come from without meeting, and cover it while none
    was freed. -/
structure Pieces (X : Set ℕ) (x : State × Track) : Prop where
  live : x.2.pieces ⊆ x.1.live
  packed : Packed x.2.pieces (extent x.1) X
  covered : x.2.whole = true → Covered x.2.pieces (extent x.1) X

theorem pieces_of {s : State} {m : ℕ} (hm : m ∈ s.live) : Pieces (extent s m) (s, Track.of m) where
  live := Finset.singleton_subset_iff.mpr hm
  packed := packed_singleton (extent s) m
  covered _ := covered_singleton (extent s) m

/-- A call that leaves the pieces as they are. -/
theorem Pieces.keep {X : Set ℕ} {s s' : State} {t : Track} (hI : Pieces X (s, t))
    (hlive : s.live ⊆ s'.live) (hbuf : ∀ m ∈ s.live, s'.buf m = s.buf m) : Pieces X (s', t) := by
  have hsame : ∀ m ∈ t.pieces, extent s' m = extent s m := by
    intro m hm
    rw [extent, extent, hbuf m (hI.live hm)]
  exact ⟨hI.live.trans hlive, hI.packed.congr hsame, fun h => (hI.covered h).congr hsame⟩

/-- A piece goes: nothing happens to the others. -/
theorem Pieces.drop {X : Set ℕ} {s s' : State} {t : Track} {m : ℕ} (hI : Pieces X (s, t))
    (hlive : s.live.erase m ⊆ s'.live) (hbuf : ∀ h, h ≠ m → s'.buf h = s.buf h) :
    Pieces X (s', ⟨t.pieces.erase m, false⟩) := by
  have hsame : ∀ h ∈ t.pieces.erase m, extent s' h = extent s h := by
    intro h hh
    rw [extent, extent, hbuf h (Finset.ne_of_mem_erase hh)]
  exact ⟨(Finset.erase_subset_erase m hI.live).trans hlive, (hI.packed.erase m).congr hsame, nofun⟩

/-- The two parts of a split. -/
theorem extent_divided {s : State} {m1 m2 split : ℕ} (h1 : m1 ∈ s.live) (h2 : m2 ∉ s.live)
    (hlt : split < (s.buf m1).n) :
    extent (s.divided m1 m2 split) m1 ∪ extent (s.divided m1 m2 split) m2 = extent s m1 ∧
      Disjoint (extent (s.divided m1 m2 split) m1) (extent (s.divided m1 m2 split) m2) ∧
      ∀ h ∈ s.live, h ≠ m1 → (s.divided m1 m2 split).buf h = s.buf h := by
  have hne : m2 ≠ m1 := (ne_of_mem_of_not_mem h1 h2).symm
  have he1 : extent (s.divided m1 m2 split) m1 = Set.Ico (s.buf m1).ptr ((s.buf m1).ptr + split) := by
    simp [extent, State.divided]
  have he2 : extent (s.divided m1 m2 split) m2
      = Set.Ico ((s.buf m1).ptr + split) ((s.buf m1).ptr + (s.buf m1).n) := by
    simp only [extent, State.divided, Function.update_of_ne hne, Function.update_self]
    congr 1
    omega
  rw [he1, he2]
  refine ⟨?_, ?_, fun h hh hne1 => ?_⟩
  · rw [Set.Ico_union_Ico_eq_Ico (by omega) (by omega), extent]
  · exact Set.Ico_disjoint_Ico_same
  · simp [State.divided, hne1, ne_of_mem_of_not_mem hh h2]

theorem pieces_step {X : Set ℕ} (x : State × Track) (op : Op) (x' : State × Track) (hI : Pieces X x)
    (h : trackedStep x op = some x') : Pieces X x' := by
  obtain ⟨s, t⟩ := x
  obtain ⟨s', hs', rfl⟩ := Option.map_eq_some_iff.mp h
  cases step_effect hs' with
  | createFails | cloneFails | copyFails => exact hI
  | create hm =>
    refine hI.keep (Finset.subset_insert _ _) fun h hh => ?_
    simp [State.created, ne_of_mem_of_not_mem hh hm]
  | clone _ ht =>
    refine hI.keep (Finset.subset_insert _ _) fun h hh => ?_
    simp [State.cloned, ne_of_mem_of_not_mem hh ht]
  | copy ht =>
    refine hI.keep (Finset.subset_insert _ _) fun h hh => ?_
    simp [State.created, ne_of_mem_of_not_mem hh ht]
  | @free m hm =>
    simp only [track]
    split
    · refine hI.drop (mbufferFree_live s m).symm.subset fun h _ => ?_
      rw [mbufferFree_buf]
    · rename_i hnot
      -- a buffer that is not a piece is freed
      have hlive : t.pieces ⊆ (mbufferFree s m).live := by
        rw [mbufferFree_live]
        exact fun h hh => Finset.mem_erase.mpr ⟨fun heq => hnot (heq ▸ hh), hI.live hh⟩
      have hsame : extent (mbufferFree s m) = extent s := by
        funext h
        rw [extent, extent, mbufferFree_buf]
      exact ⟨hlive, hsame ▸ hI.packed, hsame ▸ hI.covered⟩
  | reallocFails hcall =>
    simp only [track, hcall, Option.map_some, Option.some.injEq]
    rw [if_neg (by simp)]
    exact hI
  | @realloc m size p hcall =>
    simp only [track, hcall, Option.map_some, and_true]
    split
    · exact hI.drop (Finset.erase_subset _ _) fun h hne => by simp [State.moved, hne]
    · rename_i hnot
      have hsame : ∀ h ∈ t.pieces, extent (s.moved m p size) h = extent s h := by
        intro h hh
        have hne : h ≠ m := fun heq => hnot (heq ▸ hh)
        simp [extent, State.moved, hne]
      exact ⟨hI.live, hI.packed.congr hsame, fun hw => (hI.covered hw).congr hsame⟩
  | @split m1 m2 split h1 h2 hpos hlt =>
    obtain ⟨hunion, hapart, hrest⟩ := extent_divided h1 h2 hlt
    have hrest' : ∀ h ∈ t.pieces, h ≠ m1 → extent (s.divided m1 m2 split) h = extent s h := by
      intro h hh hne
      rw [extent, extent, hrest h (hI.live hh) hne]
    have hm2 : m2 ∉ t.pieces := fun hmem => h2 (hI.live hmem)
    simp only [track]
    split
    · rename_i hpiece
      exact ⟨Finset.insert_subset_insert m2 hI.live, hI.packed.cut hpiece hm2 hunion hapart hrest',
        fun hw => (hI.covered hw).cut hpiece hunion hrest'⟩
    · rename_i hnot
      have hsame : ∀ h ∈ t.pieces, extent (s.divided m1 m2 split) h = extent s h :=
        fun h hh => hrest' h hh fun heq => hnot (heq ▸ hh)
      exact ⟨hI.live.trans (Finset.subset_insert m2 _), hI.packed.congr hsame,
        fun hw => (hI.covered hw).congr hsame⟩

/-! ### Every run -/

/-- Every counter is the number of live buffers of its block, the memory of a block has been given back
    once if it has no buffer left and not otherwise, a call gives it back exactly when it frees the last
    of them, the pieces of every live buffer stay apart inside it and cover it, and a `realloc` works on
    an unshared original buffer or changes nothing. -/
structure Exact (s : State) : Prop where
  counter : ∀ b, (s.mcb b).i.toNat = refs s b
  ledger : ∀ b, s.released.count b = if b < s.next ∧ refs s b = 0 then 1 else 0
  last : ∀ op s', step s op = some s' → s'.released = s.released ++ gives s op
  pieces : ∀ m ∈ s.live, ∀ ops x, Run.exec trackedStep (s, Track.of m) ops = some x →
    Pieces (extent s m) x
  realloc : ∀ m ∈ s.live, ∀ size r s' v, mbufferRealloc s m size r = some (s', v) →
    (v = 0 ∧ refs s (s.buf m).mcb = 1 ∧ (s.buf m).ptr = (s.mcb (s.buf m).mcb).ptr) ∨ (v = -1 ∧ s' = s)

/-- CORRECT: in every run of calls in which no counter is made to wrap, reference counting is exact. -/
theorem exact_of_noWrap {ops : List Op} {s : State} (hG : Run.Meets step NoWrap State.new ops)
    (h : Run.exec step State.new ops = some s) : Exact s := by
  have hI : Counted s := Run.exec_inv_of_meets counted_step counted_new hG h
  refine ⟨hI.counter, hI.ledger, fun op s' hs' => released_step hI hs', fun m hm ops' x hx => ?_,
    fun m hm size r s' v hv => realloc_outcome hI hm hv⟩
  exact Run.exec_inv pieces_step (pieces_of hm) hx

/-- A buffer of ten bytes is created, cloned and split, and the clone freed. -/
theorem exact_of_four_calls : ∃ s, Run.exec step State.new
    [.create 0 10 (some 4096) true, .clone 0 (some 1), .split 0 2 4, .free 1] = some s ∧ Exact s := by
  have hG : Run.Meets step NoWrap State.new
      [.create 0 10 (some 4096) true, .clone 0 (some 1), .split 0 2 4, .free 1] := by decide
  obtain ⟨s, hs⟩ := Option.isSome_iff_exists.mp (show (Run.exec step State.new
      [.create 0 10 (some 4096) true, .clone 0 (some 1), .split 0 2 4, .free 1]).isSome by decide)
  exact ⟨s, hs, exact_of_noWrap hG hs⟩

/-! ### The counter wraps -/

/-- One buffer and `k` clones of it. -/
def clones (k : ℕ) : List Op :=
  .create 0 1 (some 4096) true :: (List.range k).map fun j => .clone 0 (some (j + 1))

theorem clones_run : ∀ k, k < 2 ^ 32 → ∃ s, Run.exec step State.new (clones k) = some s ∧
    s.live = Finset.range (k + 1) ∧ (∀ h ∈ s.live, (s.buf h).mcb = 0) ∧
    (s.mcb 0).i.toNat = (k + 1) % 2 ^ 32
  | 0, _ => ⟨State.new.created 0 4096 1, rfl, rfl, fun h hh => by simp_all [State.created, State.new], rfl⟩
  | k + 1, hk => by
      obtain ⟨s, hs, hlive, hmcb, hi⟩ := clones_run k (by omega)
      have h0 : 0 ∈ s.live := by simp [hlive]
      have hb : (s.buf 0).mcb = 0 := hmcb 0 h0
      have hfresh : k + 1 ∉ s.live := by simp [hlive]
      have hone : 1 ≤ (s.mcb (s.buf 0).mcb).i := by
        rw [hb, UInt32.le_iff_toNat_le, hi, Nat.mod_eq_of_lt hk]
        exact Nat.le_add_left 1 k
      have hstep : step s (.clone 0 (some (k + 1))) = some (s.cloned 0 (k + 1)) := by
        simp [step, mbufferClone, h0, hfresh, hone]
      refine ⟨s.cloned 0 (k + 1), ?_, ?_, fun h hh => ?_, ?_⟩
      · rw [clones, List.range_succ, List.map_append, ← List.cons_append]
        exact Run.exec_concat.mpr ⟨s, hs, hstep⟩
      · rw [Finset.range_add_one, ← hlive]
        rfl
      · rcases Finset.mem_insert.mp hh with rfl | hh
        · simp [State.cloned, hb]
        · simp [State.cloned, ne_of_mem_of_not_mem hh hfresh, hmcb h hh]
      · simp only [State.cloned, hb, Function.update_self, UInt32.toNat_add, hi]
        simp

/-- Once a block has 2^32 buffers, its counter is zero. -/
theorem clones_wrap {k : ℕ} (hk : k + 1 = 2 ^ 32) : ∃ s, Run.exec step State.new (clones k) = some s ∧
    0 ∈ s.live ∧ refs s (s.buf 0).mcb = 2 ^ 32 ∧ (s.mcb (s.buf 0).mcb).i = 0 := by
  obtain ⟨s, hs, hlive, hmcb, hi⟩ := clones_run k (by omega)
  have h0 : 0 ∈ s.live := by simp [hlive]
  have hall : (s.live.filter fun h => (s.buf h).mcb = 0) = s.live := Finset.filter_true_of_mem hmcb
  refine ⟨s, hs, h0, ?_, ?_⟩
  · rw [hmcb 0 h0, refs, hall, hlive, Finset.card_range, hk]
  · rw [hmcb 0 h0, ← UInt32.toNat_inj, hi, hk, Nat.mod_self]
    rfl

/-- A buffer with 2^32 - 1 clones: all of them are live and the counter is zero, so that reference
    counting is not exact and the next clone or split fails the assertion that the counter is positive. -/
theorem not_exact_of_clones : ∃ s, Run.exec step State.new (clones (2 ^ 32 - 1)) = some s ∧
    0 ∈ s.live ∧ (s.mcb (s.buf 0).mcb).i = 0 ∧ ¬Exact s := by
  obtain ⟨s, hs, h0, hrefs, hi⟩ := clones_wrap (Nat.sub_add_cancel Nat.one_le_two_pow)
  refine ⟨s, hs, h0, hi, fun hexact => ?_⟩
  have hcount := hexact.counter (s.buf 0).mcb
  rw [hi, hrefs] at hcount
  exact absurd hcount (by decide)

end Turkey.Mbuffers
