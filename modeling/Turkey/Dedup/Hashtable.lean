import Mathlib.Algebra.BigOperators.Group.Finset.Basic
import Mathlib.Data.Multiset.AddSub
import Turkey.Schemes.Objects

/-! `hashtable.c`: a table of chains, with or without `ENABLE_DYNAMIC_EXPANSION`. The hash function and the
    comparison of keys are the caller's; the table spreads the bits of the hash value once more. A chain is the list
    of its entries. The table with expansion takes the next prime when it has too many entries; the entries are moved
    one by one to the front of their new chain, so the order of a chain is not kept.

    An operation is undefined, `none`, when it leaves the table or writes through a pointer that nobody has set. -/

namespace Turkey.Buckets
open Turkey.Objects
variable {K V : Type}

/-- The sizes that a table can have. -/
def primes : List ℕ := [53, 97, 193, 389, 769, 1543, 3079, 6151, 12289, 24593, 49157, 98317, 196613, 393241, 786433,
  1572869, 3145739, 6291469, 12582917, 25165843, 50331653, 100663319, 201326611, 402653189, 805306457, 1610612741]

/-- `hash`, from the value of the caller's function on. -/
def hash (i : BitVec 32) : BitVec 32 :=
  let i := i + ~~~(i <<< 9)
  let i := i ^^^ ((i >>> 14) ||| (i <<< 18))
  let i := i + (i <<< 4)
  i ^^^ ((i >>> 10) ||| (i <<< 22))

/-- The bucket of a hash. -/
def indexFor (tablelength : ℕ) (hashvalue : BitVec 32) : ℕ := hashvalue.toNat % tablelength

/-- `struct hash_entry`, without the pointer to the next one. -/
structure HashEntry (K V : Type) where
  h : BitVec 32
  k : K
  v : V

/-- `struct hashtable`. `table` has `tablelength` chains. -/
structure Hashtable (K V : Type) where
  tablelength : ℕ
  table : ℕ → List (HashEntry K V)
  entrycount : BitVec 32
  loadlimit : ℕ
  primeindex : ℕ

/-- How the memory for a larger table comes: from `malloc`, not at all, or from `realloc` after `malloc` has failed. -/
inductive Memory where
  | malloc
  | exhausted
  | realloc
  deriving DecidableEq

/-- `limit` is `(unsigned int) ceil(size * max_load_factor)`. -/
structure Config (K : Type) where
  hashfn : K → BitVec 32
  eqfn : K → K → Bool
  limit : ℕ → ℕ
  dynamic : Bool

variable (c : Config K)

/-- `hashtable_create`, when there is memory; `none` is the `NULL` of a table that is too large. -/
def hashtableCreate (minsize : BitVec 32) : Option (Hashtable K V) :=
  if minsize.toNat > 2 ^ 30 then none
  else
    let pindex := primes.findIdx fun p => p > minsize.toNat
    let size := primes.getD pindex 53
    some ⟨size, fun _ => [], 0, c.limit size, pindex⟩

/-- The entries of one chain are put into the new table. -/
def transfer (newsize : ℕ) : List (HashEntry K V) → (ℕ → List (HashEntry K V)) → ℕ → List (HashEntry K V)
  | [], newtable => newtable
  | e :: chain, newtable =>
    let index := indexFor newsize e.h
    transfer newsize chain (Function.update newtable index (e :: newtable index))

/-- The first `n` chains are put into a new table. -/
def transferAll (newsize : ℕ) (table : ℕ → List (HashEntry K V)) : ℕ → ℕ → List (HashEntry K V)
  | 0 => fun _ => []
  | n + 1 => transfer newsize (table n) (transferAll newsize table n)

/-- `hashtable_expand`. The `memset` behind `realloc` starts where the first new element points to. -/
def hashtableExpand (memory : Memory) (h : Hashtable K V) : Option (Hashtable K V) :=
  if h.primeindex = primes.length - 1 then some h
  else
    (primes[h.primeindex + 1]?).bind fun newsize => match memory with
      | .malloc => some { h with
          tablelength := newsize
          table := transferAll newsize h.table h.tablelength
          loadlimit := c.limit newsize
          primeindex := h.primeindex + 1 }
      | .exhausted => some h
      | .realloc => none

/-- A number for which the table has a chain. -/
def chainIndex (h : Hashtable K V) (hashvalue : BitVec 32) : Option ℕ :=
  if h.tablelength = 0 then none else some (indexFor h.tablelength hashvalue)

/-- `hashtable_insert`; the last argument says whether there is memory for the entry. -/
def hashtableInsert (k : K) (v : V) (memory : Memory) (entry : Bool) (h : Hashtable K V) :
    Option (ℤ × Hashtable K V) :=
  let counted := { h with entrycount := if c.dynamic then h.entrycount + 1 else h.entrycount }
  (if c.dynamic ∧ counted.entrycount.toNat > h.loadlimit then hashtableExpand c memory counted
    else some counted).bind fun h =>
      if entry then
        let e : HashEntry K V := ⟨hash (c.hashfn k), k, v⟩
        (chainIndex h e.h).map fun index => (-1, { h with table := Function.update h.table index (e :: h.table index) })
      else some (0, { h with entrycount := if c.dynamic then h.entrycount - 1 else h.entrycount })

/-- The comparison of the hash values saves that of the keys. -/
def sameKey (k : K) (e : HashEntry K V) : Bool := hash (c.hashfn k) = e.h && c.eqfn k e.k

/-- `hashtable_search` -/
def hashtableSearch (k : K) (h : Hashtable K V) : Option (Option V) :=
  (chainIndex h (hash (c.hashfn k))).map fun index =>
    ((h.table index).find? (sameKey c k)).map HashEntry.v

/-- The loop of `hashtable_remove`. -/
def unlink (k : K) : List (HashEntry K V) → Option V × List (HashEntry K V)
  | [] => (none, [])
  | e :: chain =>
    if sameKey c k e then (some e.v, chain)
    else ((unlink k chain).1, e :: (unlink k chain).2)

/-- `hashtable_remove` -/
def hashtableRemove (k : K) (h : Hashtable K V) : Option (Option V × Hashtable K V) :=
  (chainIndex h (hash (c.hashfn k))).map fun index =>
    let (v, chain) := unlink c k (h.table index)
    (v, { h with
      table := Function.update h.table index chain
      entrycount := if c.dynamic ∧ v.isSome then h.entrycount - 1 else h.entrycount })

/-- The operations, with what `malloc` does in an insertion. -/
inductive Op (K V : Type) where
  | insert (k : K) (v : V) (memory : Memory) (entry : Bool)
  | search (k : K)
  | remove (k : K)
  | count

/-- What an operation returns. -/
inductive Reply (V : Type) where
  | code (rv : ℤ)
  | value (v : Option V)
  | number (n : BitVec 32)

/-- `hashtable_count` is there with expansion only. -/
def step (h : Hashtable K V) : Op K V → Option (Reply V × Hashtable K V)
  | .insert k v memory entry => (hashtableInsert c k v memory entry h).map fun (rv, h) => (.code rv, h)
  | .search k => (hashtableSearch c k h).map fun v => (.value v, h)
  | .remove k => (hashtableRemove c k h).map fun (v, h) => (.value v, h)
  | .count => if c.dynamic then some (.number h.entrycount, h) else none

/-! ### A bag of keys with values -/

/-- What the operations do to a bag. Of several entries with equal keys any one may be found or removed. -/
inductive Does : Multiset (K × V) → Op K V → Reply V → Multiset (K × V) → Prop where
  | insert (bag : Multiset (K × V)) (k : K) (v : V) (memory : Memory) :
      Does bag (.insert k v memory true) (.code (-1)) ((k, v) ::ₘ bag)
  | full (bag : Multiset (K × V)) (k : K) (v : V) (memory : Memory) :
      Does bag (.insert k v memory false) (.code 0) bag
  | found (bag : Multiset (K × V)) (k : K) (p : K × V) : p ∈ bag → c.eqfn k p.1 = true →
      Does bag (.search k) (.value (some p.2)) bag
  | missing (bag : Multiset (K × V)) (k : K) : (∀ p ∈ bag, c.eqfn k p.1 = false) →
      Does bag (.search k) (.value none) bag
  | removed (bag : Multiset (K × V)) (k : K) (p : K × V) : c.eqfn k p.1 = true →
      Does (p ::ₘ bag) (.remove k) (.value (some p.2)) bag
  | absent (bag : Multiset (K × V)) (k : K) : (∀ p ∈ bag, c.eqfn k p.1 = false) →
      Does bag (.remove k) (.value none) bag
  | count (bag : Multiset (K × V)) : Does bag .count (.number (BitVec.ofNat 32 bag.card)) bag

/-- The entries of a chain. -/
def pairs (chain : List (HashEntry K V)) : Multiset (K × V) := chain.map fun e => (e.k, e.v)

/-- The table holds the entries, each in its chain. -/
structure Holds (h : Hashtable K V) (entries : Multiset (K × V)) : Prop where
  size : primes[h.primeindex]? = some h.tablelength
  hashed : ∀ i, ∀ e ∈ h.table i, e.h = hash (c.hashfn e.k)
  placed : ∀ i, ∀ e ∈ h.table i, indexFor h.tablelength e.h = i
  bag : ∑ i ∈ Finset.range h.tablelength, pairs (h.table i) = entries

/-- The table holds these entries, and counts them. -/
structure Represents (h : Hashtable K V) (entries : Multiset (K × V)) : Prop extends Holds c h entries where
  count : c.dynamic = true → h.entrycount = BitVec.ofNat 32 entries.card

/-! ### Chains -/

theorem indexFor_lt {n : ℕ} (hn : 0 < n) (hashvalue : BitVec 32) : indexFor n hashvalue < n := Nat.mod_lt _ hn

@[simp] theorem pairs_nil : pairs ([] : List (HashEntry K V)) = 0 := rfl

@[simp] theorem pairs_cons (e : HashEntry K V) (chain : List (HashEntry K V)) :
    pairs (e :: chain) = (e.k, e.v) ::ₘ pairs chain := rfl

theorem mem_pairs {p : K × V} {chain : List (HashEntry K V)} : p ∈ pairs chain ↔ ∃ e ∈ chain, (e.k, e.v) = p := by
  simp [pairs]

/-- One chain is replaced. -/
theorem sum_update {n i : ℕ} (hi : i < n) (table : ℕ → List (HashEntry K V)) (chain : List (HashEntry K V)) :
    ∑ j ∈ Finset.range n, pairs (Function.update table i chain j) + pairs (table i) =
      ∑ j ∈ Finset.range n, pairs (table j) + pairs chain := by
  have hmem : i ∈ Finset.range n := Finset.mem_range.2 hi
  have hrest : ∑ j ∈ (Finset.range n).erase i, pairs (Function.update table i chain j) =
      ∑ j ∈ (Finset.range n).erase i, pairs (table j) := by
    refine Finset.sum_congr rfl fun j hj => ?_
    rw [Function.update_of_ne (Finset.ne_of_mem_erase hj)]
  rw [← Finset.add_sum_erase _ _ hmem, ← Finset.add_sum_erase _ (fun j => pairs (table j)) hmem, hrest,
    Function.update_self, add_comm (pairs chain), add_comm (pairs (table i)), add_right_comm]

theorem mem_transfer {newsize i : ℕ} {e : HashEntry K V} : ∀ {chain : List (HashEntry K V)}
    {newtable : ℕ → List (HashEntry K V)}, e ∈ transfer newsize chain newtable i →
      e ∈ newtable i ∨ e ∈ chain ∧ indexFor newsize e.h = i
  | [], _, h => .inl h
  | a :: chain, newtable, h => by
    rw [transfer] at h
    rcases mem_transfer h with h | ⟨h, hi⟩
    · by_cases hai : i = indexFor newsize a.h
      · subst hai
        rw [Function.update_self, List.mem_cons] at h
        rcases h with rfl | h
        · exact .inr ⟨List.mem_cons_self .., rfl⟩
        · exact .inl h
      · rw [Function.update_of_ne hai] at h
        exact .inl h
    · exact .inr ⟨List.mem_cons_of_mem _ h, hi⟩

theorem sum_transfer {newsize : ℕ} (hpos : 0 < newsize) : ∀ (chain : List (HashEntry K V))
    (newtable : ℕ → List (HashEntry K V)), ∑ i ∈ Finset.range newsize, pairs (transfer newsize chain newtable i) =
      ∑ i ∈ Finset.range newsize, pairs (newtable i) + pairs chain
  | [], newtable => by simp [transfer]
  | a :: chain, newtable => by
    have hone := sum_update (indexFor_lt hpos a.h) newtable (a :: newtable (indexFor newsize a.h))
    rw [pairs_cons, ← Multiset.singleton_add, ← add_assoc] at hone
    have hmoved := add_right_cancel hone
    rw [transfer, sum_transfer hpos chain, hmoved, pairs_cons, ← Multiset.singleton_add, add_assoc]

theorem mem_transferAll {newsize i : ℕ} {e : HashEntry K V} {table : ℕ → List (HashEntry K V)} : ∀ {n : ℕ},
    e ∈ transferAll newsize table n i → indexFor newsize e.h = i ∧ ∃ j, e ∈ table j
  | 0, h => absurd h List.not_mem_nil
  | n + 1, h => by
    rcases mem_transfer h with h | ⟨h, hi⟩
    · exact mem_transferAll h
    · exact ⟨hi, n, h⟩

/-- Expansion keeps all entries. -/
theorem sum_transferAll {newsize : ℕ} (hpos : 0 < newsize) (table : ℕ → List (HashEntry K V)) : ∀ n,
    ∑ i ∈ Finset.range newsize, pairs (transferAll newsize table n i) = ∑ j ∈ Finset.range n, pairs (table j)
  | 0 => by simp [transferAll]
  | n + 1 => by rw [transferAll, sum_transfer hpos, sum_transferAll hpos table n, Finset.sum_range_succ]

variable {c}

namespace Holds
variable {h : Hashtable K V} {entries : Multiset (K × V)}

theorem primes_pos : ∀ p ∈ primes, 0 < p := by decide

theorem pos (hh : Holds c h entries) : 0 < h.tablelength := primes_pos _ (List.mem_of_getElem? hh.size)

theorem chainIndex_eq (hh : Holds c h entries) (hashvalue : BitVec 32) :
    chainIndex h hashvalue = some (indexFor h.tablelength hashvalue) := if_neg hh.pos.ne'

/-- The number of entries that have been counted does not matter. -/
theorem recount (hh : Holds c h entries) (n : BitVec 32) : Holds c { h with entrycount := n } entries :=
  ⟨hh.size, hh.hashed, hh.placed, hh.bag⟩

/-- An entry of the bag is in the chain of its key. -/
theorem mem_iff (hh : Holds c h entries) {p : K × V} : p ∈ entries ↔
    ∃ e ∈ h.table (indexFor h.tablelength (hash (c.hashfn p.1))), (e.k, e.v) = p := by
  rw [← hh.bag, Multiset.mem_sum]
  constructor
  · rintro ⟨i, -, hp⟩
    obtain ⟨e, he, rfl⟩ := mem_pairs.1 hp
    refine ⟨e, ?_, rfl⟩
    rw [← hh.hashed i e he, hh.placed i e he]
    exact he
  · rintro ⟨e, he, rfl⟩
    exact ⟨_, Finset.mem_range.2 (indexFor_lt hh.pos _), mem_pairs.2 ⟨e, he, rfl⟩⟩

theorem expand (hh : Holds c h entries) {memory : Memory} (hmemory : memory ≠ .realloc) :
    ∃ h', hashtableExpand c memory h = some h' ∧ Holds c h' entries ∧ h'.entrycount = h.entrycount := by
  rw [hashtableExpand]
  split_ifs with hlast
  · exact ⟨h, rfl, hh, rfl⟩
  · have hlt := (List.getElem?_eq_some_iff.1 hh.size).1
    have hnext : h.primeindex + 1 < primes.length := by omega
    rw [List.getElem?_eq_getElem hnext, Option.bind_some]
    cases memory with
    | malloc =>
      have hpos := primes_pos _ (List.getElem_mem hnext)
      refine ⟨_, rfl, ⟨List.getElem?_eq_getElem hnext, fun i e he => ?_, fun i e he => (mem_transferAll he).1, ?_⟩, rfl⟩
      · obtain ⟨-, j, hj⟩ := mem_transferAll he
        exact hh.hashed j e hj
      · exact (sum_transferAll hpos h.table h.tablelength).trans hh.bag
    | exhausted => exact ⟨h, rfl, hh, rfl⟩
    | realloc => exact absurd rfl hmemory

/-- A chain is replaced by one whose entries belong there. -/
theorem replace (hh : Holds c h entries) {index : ℕ} {chain : List (HashEntry K V)}
    (hchain : ∀ e ∈ chain, e.h = hash (c.hashfn e.k) ∧ indexFor h.tablelength e.h = index) :
    Holds c { h with table := Function.update h.table index chain }
      (∑ j ∈ Finset.range h.tablelength, pairs (Function.update h.table index chain j)) := by
  have hmem : ∀ i e, e ∈ Function.update h.table index chain i → e ∈ chain ∧ i = index ∨ e ∈ h.table i := by
    intro i e he
    rcases eq_or_ne i index with rfl | hne
    · rw [Function.update_self] at he
      exact .inl ⟨he, rfl⟩
    · rw [Function.update_of_ne hne] at he
      exact .inr he
  refine ⟨hh.size, fun i e he => ?_, fun i e he => ?_, rfl⟩
  · rcases hmem i e he with ⟨he, -⟩ | he
    · exact (hchain e he).1
    · exact hh.hashed i e he
  · rcases hmem i e he with ⟨he', rfl⟩ | he
    · exact (hchain e he').2
    · exact hh.placed i e he

/-- An entry is put to the front of its chain. -/
theorem push (hh : Holds c h entries) (k : K) (v : V) :
    let e : HashEntry K V := ⟨hash (c.hashfn k), k, v⟩
    let index := indexFor h.tablelength e.h
    Holds c { h with table := Function.update h.table index (e :: h.table index) } ((k, v) ::ₘ entries) := by
  intro e index
  have hone := sum_update (indexFor_lt hh.pos e.h) h.table (e :: h.table index)
  rw [pairs_cons, ← Multiset.singleton_add, ← add_assoc] at hone
  have hsum : (k, v) ::ₘ entries =
      ∑ j ∈ Finset.range h.tablelength, pairs (Function.update h.table index (e :: h.table index) j) := by
    rw [← Multiset.singleton_add, add_comm, ← hh.bag]
    exact (add_right_cancel hone).symm
  rw [hsum]
  refine hh.replace fun a ha => ?_
  rcases List.mem_cons.1 ha with rfl | ha
  · exact ⟨rfl, rfl⟩
  · exact ⟨hh.hashed _ a ha, hh.placed _ a ha⟩

/-- A chain loses an entry. -/
theorem drop (hh : Holds c h entries) {index : ℕ} (hindex : index < h.tablelength) {chain : List (HashEntry K V)}
    {p : K × V} (hsub : ∀ e ∈ chain, e ∈ h.table index) (hp : pairs (h.table index) = p ::ₘ pairs chain) :
    ∃ rest, entries = p ::ₘ rest ∧ Holds c { h with table := Function.update h.table index chain } rest := by
  refine ⟨_, ?_, hh.replace fun e he => ⟨hh.hashed _ e (hsub e he), hh.placed _ e (hsub e he)⟩⟩
  have hone := sum_update hindex h.table chain
  rw [hp, hh.bag, ← Multiset.singleton_add, ← add_assoc] at hone
  rw [← add_right_cancel hone, ← Multiset.singleton_add, add_comm]

end Holds

theorem sameKey_iff {k : K} {e : HashEntry K V} (he : e.h = hash (c.hashfn e.k))
    (hcompat : ∀ a b, c.eqfn a b = true → c.hashfn a = c.hashfn b) :
    sameKey c k e = true ↔ c.eqfn k e.k = true := by
  rw [sameKey, Bool.and_eq_true, decide_eq_true_iff]
  refine ⟨And.right, fun hkey => ⟨?_, hkey⟩⟩
  rw [he, hcompat k e.k hkey]

/-- The loop takes out the first entry with this key. -/
theorem unlink_cases (k : K) : ∀ chain : List (HashEntry K V),
    ((unlink c k chain) = (none, chain) ∧ ∀ e ∈ chain, sameKey c k e = false) ∨
      ∃ e ∈ chain, sameKey c k e = true ∧ (unlink c k chain).1 = some e.v ∧
        (∀ a ∈ (unlink c k chain).2, a ∈ chain) ∧ pairs chain = (e.k, e.v) ::ₘ pairs (unlink c k chain).2
  | [] => .inl ⟨rfl, by simp⟩
  | a :: chain => by
    by_cases ha : sameKey c k a = true
    · refine .inr ⟨a, List.mem_cons_self .., ha, ?_⟩
      rw [unlink, if_pos ha]
      exact ⟨rfl, fun b hb => List.mem_cons_of_mem _ hb, rfl⟩
    · rw [unlink, if_neg ha]
      rcases unlink_cases k chain with ⟨hnone, hall⟩ | ⟨e, he, hkey, hv, hsub, hp⟩
      · refine .inl ⟨by rw [hnone], fun b hb => ?_⟩
        rcases List.mem_cons.1 hb with rfl | hb
        · exact Bool.eq_false_iff.2 ha
        · exact hall b hb
      · refine .inr ⟨e, List.mem_cons_of_mem _ he, hkey, hv, fun b hb => ?_, ?_⟩
        · rcases List.mem_cons.1 hb with rfl | hb
          · exact List.mem_cons_self ..
          · exact List.mem_cons_of_mem _ (hsub b hb)
        · rw [pairs_cons, hp, pairs_cons, Multiset.cons_swap]

/-! ### Every operation -/

/-- `realloc` is not reached, and `hashtable_count` is called where it exists. -/
def Op.Admissible (dynamic : Bool) : Op K V → Prop
  | .insert _ _ memory _ => memory = .realloc → dynamic = false
  | .count => dynamic = true
  | _ => True

theorem ofNat_card_cons (p : K × V) (entries : Multiset (K × V)) :
    BitVec.ofNat 32 (p ::ₘ entries).card = BitVec.ofNat 32 entries.card + 1 := by
  rw [Multiset.card_cons, BitVec.ofNat_add]
  rfl

theorem Represents.insert {h : Hashtable K V} {entries : Multiset (K × V)} (hh : Represents c h entries) (k : K) (v : V)
    {memory : Memory} (hmemory : memory = .realloc → c.dynamic = false) (entry : Bool) :
    ∃ rv h' entries', hashtableInsert c k v memory entry h = some (rv, h') ∧
      Does c entries (.insert k v memory entry) (.code rv) entries' ∧ Represents c h' entries' := by
  have hcounted : ∀ counted : Hashtable K V, Holds c counted entries →
      ∃ h₁, (if c.dynamic = true ∧ counted.entrycount.toNat > counted.loadlimit then hashtableExpand c memory counted
        else some counted) = some h₁ ∧ Holds c h₁ entries ∧ h₁.entrycount = counted.entrycount := by
    intro counted hh'
    split_ifs with hexpand
    · refine hh'.expand fun hrealloc => ?_
      simp [hmemory hrealloc] at hexpand
    · exact ⟨_, rfl, hh', rfl⟩
  obtain ⟨h₁, heq, hh₁, hcount⟩ := hcounted _ (hh.recount (if c.dynamic then h.entrycount + 1 else h.entrycount))
  rw [hashtableInsert]
  dsimp only at heq ⊢
  rw [heq, Option.bind_some]
  cases entry with
  | false =>
    refine ⟨0, { h₁ with entrycount := if c.dynamic then h₁.entrycount - 1 else h₁.entrycount }, entries, rfl,
      .full entries k v memory, hh₁.recount _, fun hd => ?_⟩
    simp only [hd, if_true, hcount, hh.count hd, BitVec.add_sub_cancel]
  | true =>
    refine ⟨-1, _, (k, v) ::ₘ entries, ?_, .insert entries k v memory, hh₁.push k v, fun hd => ?_⟩
    · rw [if_pos rfl, hh₁.chainIndex_eq]
      rfl
    · rw [ofNat_card_cons, ← hh.count hd]
      simpa [hd] using hcount

variable (hcompat : ∀ a b, c.eqfn a b = true → c.hashfn a = c.hashfn b)
include hcompat

theorem Represents.search {h : Hashtable K V} {entries : Multiset (K × V)} (hh : Represents c h entries) (k : K) :
    ∃ v, hashtableSearch c k h = some v ∧ Does c entries (.search k) (.value v) entries := by
  rw [hashtableSearch, hh.chainIndex_eq, Option.map_some]
  cases hfind : (h.table (indexFor h.tablelength (hash (c.hashfn k)))).find? (sameKey c k) with
  | none =>
    refine ⟨none, rfl, .missing entries k fun p hp => Bool.eq_false_iff.2 fun hkey => ?_⟩
    obtain ⟨e, he, rfl⟩ := hh.mem_iff.1 hp
    rw [← hcompat k e.k hkey] at he
    exact List.find?_eq_none.1 hfind e he ((sameKey_iff (hh.hashed _ e he) hcompat).2 hkey)
  | some e =>
    have he := List.mem_of_find?_eq_some hfind
    have hkey := (sameKey_iff (hh.hashed _ e he) hcompat).1 (List.find?_some hfind)
    refine ⟨some e.v, rfl, .found entries k (e.k, e.v) ?_ hkey⟩
    rw [hh.mem_iff, ← hcompat k e.k hkey]
    exact ⟨e, he, rfl⟩

theorem Represents.remove {h : Hashtable K V} {entries : Multiset (K × V)} (hh : Represents c h entries) (k : K) :
    ∃ v h' entries', hashtableRemove c k h = some (v, h') ∧ Does c entries (.remove k) (.value v) entries' ∧
      Represents c h' entries' := by
  rw [hashtableRemove, hh.chainIndex_eq, Option.map_some]
  rcases unlink_cases (c := c) k (h.table (indexFor h.tablelength (hash (c.hashfn k)))) with
    ⟨hnone, hall⟩ | ⟨e, he, hkey, hv, hsub, hp⟩
  · refine ⟨none, h, entries, ?_, .absent entries k fun p hp => Bool.eq_false_iff.2 fun hkey => ?_, hh⟩
    · simp [hnone]
    · obtain ⟨e, he, rfl⟩ := hh.mem_iff.1 hp
      rw [← hcompat k e.k hkey] at he
      have hnot := hall e he
      rw [(sameKey_iff (hh.hashed _ e he) hcompat).2 hkey] at hnot
      cases hnot
  · obtain ⟨rest, rfl, hh'⟩ := hh.drop (indexFor_lt hh.pos _) hsub hp
    refine ⟨some e.v, { h with
      table := Function.update h.table (indexFor h.tablelength (hash (c.hashfn k)))
        (unlink c k (h.table (indexFor h.tablelength (hash (c.hashfn k))))).2
      entrycount := if c.dynamic then h.entrycount - 1 else h.entrycount }, rest, ?_,
      .removed rest k (e.k, e.v) ((sameKey_iff (hh.hashed _ e he) hcompat).1 hkey), hh'.recount _, fun hd => ?_⟩
    · simp [hv]
    · have hcount := hh.count hd
      rw [ofNat_card_cons] at hcount
      simp only [hd, if_true, hcount, BitVec.add_sub_cancel]

theorem Represents.step {h : Hashtable K V} {entries : Multiset (K × V)} (hh : Represents c h entries) {op : Op K V}
    (hop : op.Admissible c.dynamic) :
    ∃ r h' entries', Buckets.step c h op = some (r, h') ∧ Does c entries op r entries' ∧ Represents c h' entries' := by
  cases op with
  | insert k v memory entry =>
    obtain ⟨rv, h', entries', hinsert, hdoes, hh'⟩ := hh.insert k v hop entry
    exact ⟨.code rv, h', entries', by rw [Buckets.step, hinsert]; rfl, hdoes, hh'⟩
  | search k =>
    obtain ⟨v, hsearch, hdoes⟩ := hh.search hcompat k
    exact ⟨.value v, h, entries, by rw [Buckets.step, hsearch]; rfl, hdoes, hh⟩
  | remove k =>
    obtain ⟨v, h', entries', hremove, hdoes, hh'⟩ := hh.remove hcompat k
    exact ⟨.value v, h', entries', by rw [Buckets.step, hremove]; rfl, hdoes, hh'⟩
  | count =>
    have hd : c.dynamic = true := hop
    refine ⟨.number h.entrycount, h, entries, by rw [Buckets.step, if_pos hd], ?_, hh⟩
    rw [hh.count hd]
    exact .count entries

omit hcompat in
/-- A new table has more chains than were asked for. -/
theorem create_represents {minsize : BitVec 32} (hsize : minsize.toNat ≤ 2 ^ 30) :
    ∃ h : Hashtable K V, hashtableCreate c minsize = some h ∧ Represents c h 0 ∧ minsize.toNat < h.tablelength := by
  have hlast : (1610612741 : ℕ) ∈ primes := by decide
  have hex : ∃ p ∈ primes, decide (p > minsize.toNat) = true :=
    ⟨1610612741, hlast, decide_eq_true (Nat.lt_of_le_of_lt hsize (by decide))⟩
  have hlt := List.findIdx_lt_length_of_exists hex
  have hget : primes.getD (primes.findIdx fun p => p > minsize.toNat) 53 =
      primes[primes.findIdx fun p => p > minsize.toNat] := by
    rw [List.getD_eq_getElem?_getD, List.getElem?_eq_getElem hlt, Option.getD_some]
  have hgt := List.findIdx_getElem (w := hlt)
  refine ⟨_, if_neg (by omega), ⟨⟨?_, by simp, by simp, by simp⟩, fun _ => rfl⟩, ?_⟩
  · exact (List.getElem?_eq_getElem hlt).trans (congrArg some hget.symm)
  · show minsize.toNat < primes.getD _ 53
    rw [hget]
    exact of_decide_eq_true hgt

/-- What one operation does holds of every sequence of operations. -/
theorem Represents.run : ∀ {ops : List (Op K V)} {h : Hashtable K V} {entries : Multiset (K × V)}, Represents c h entries →
    (∀ op ∈ ops, op.Admissible c.dynamic) → ∃ replies h' entries', Objects.run (Buckets.step c) h ops = some (replies, h') ∧
      Allowed (Does c) entries ops replies entries' ∧ Represents c h' entries'
  | [], h, entries, hh, _ => ⟨[], h, entries, rfl, rfl, hh⟩
  | op :: ops, h, entries, hh, hops => by
    obtain ⟨r, h₁, entries₁, hstep, hdoes, hh₁⟩ := hh.step hcompat (hops op (List.mem_cons_self ..))
    obtain ⟨rs, h', entries', hrun, hallowed, hh'⟩ := hh₁.run fun a ha => hops a (List.mem_cons_of_mem _ ha)
    exact ⟨r :: rs, h', entries', run_cons.2 ⟨r, h₁, rs, h', hstep, hrun, rfl⟩, ⟨entries₁, hdoes, hallowed⟩, hh'⟩

/-- CORRECT: whatever is inserted, searched for and removed, with and without expansion and when memory runs out, the
    table answers like a bag of keys with values, and every entry is in the chain of its key. The exception is the
    expansion with `realloc`, which is not reached. -/
theorem table_is_bag {minsize : BitVec 32} (hsize : minsize.toNat ≤ 2 ^ 30) (ops : List (Op K V))
    (hops : ∀ op ∈ ops, op.Admissible c.dynamic) :
    ∃ h replies h' entries, hashtableCreate c minsize = some h ∧ run (step c) h ops = some (replies, h') ∧
      Allowed (Does c) 0 ops replies entries ∧ Represents c h' entries := by
  obtain ⟨h, hcreate, hh, -⟩ := create_represents (c := c) (V := V) hsize
  obtain ⟨replies, h', entries, hrun, hallowed, hh'⟩ := hh.run hcompat hops
  exact ⟨h, replies, h', entries, hcreate, hrun, hallowed, hh'⟩

omit hcompat in
/-- Numbers as keys, and room for one entry before the table grows. -/
theorem table_is_bag_numbers : ∃ h replies h' entries,
    hashtableCreate ⟨BitVec.ofNat 32, fun a b => decide (a = b), fun _ => 1, true⟩ 100 = some h ∧
      run (step ⟨BitVec.ofNat 32, fun a b => decide (a = b), fun _ => 1, true⟩) h
        [.insert 3 false .malloc true, .insert 4 true .malloc true, .remove 3, .count] = some (replies, h') ∧
      Allowed (Does ⟨BitVec.ofNat 32, fun a b => decide (a = b), fun _ => 1, true⟩) 0
        [.insert 3 false .malloc true, .insert 4 true .malloc true, .remove 3, .count] replies entries ∧
      Represents ⟨BitVec.ofNat 32, fun a b => decide (a = b), fun _ => 1, true⟩ h' entries :=
  table_is_bag (fun a b hab => congrArg _ (of_decide_eq_true hab)) (by decide) _ (by simp [Op.Admissible])

omit hcompat in
/-- The expansion with `realloc` is undefined whenever there is a larger prime. -/
theorem expand_realloc (h : Hashtable K V) (hlt : h.primeindex + 1 < primes.length) :
    hashtableExpand c .realloc h = none := by
  rw [hashtableExpand, if_neg (by omega), List.getElem?_eq_getElem hlt, Option.bind_some]

end Turkey.Buckets
