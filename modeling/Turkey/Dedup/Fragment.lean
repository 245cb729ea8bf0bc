import Turkey.Dedup.Rabin

/-! How the input becomes chunks (`encoder.c`). `SerialIntegratedPipeline` and `Fragment` read the file in
    blocks of `MAXBUF` bytes, split what they have as long as they find a place, and put what is left
    in front of the next block; at the end of the file it is the last chunk. `FragmentRefine` splits one
    buffer in the same way. They differ in where they look for a place: `Fragment` starts
    `ANCHOR_JUMP` bytes into the buffer. So there is one loop each, with the place as a parameter.

    `none` is an exit of the program or a failed assertion. Reading does not fail and there is memory
    for all buffers. -/

namespace Turkey.Fragment
open Turkey.Rabin

/-- `MAXBUF` -/
def maxbuf : ℕ := 128 * 1024 * 1024

/-- `ANCHOR_JUMP` -/
def anchorJump : ℕ := 2 * 1024 * 1024

/-- `SSIZE_MAX` -/
def ssizeMax : ℕ := 2 ^ 63 - 1

/-- What one look for a place does: an assertion fails, the buffer is to be split, or it is kept. -/
inductive Found where
  | failed
  | split (place : ℕ)
  | whole
  deriving DecidableEq

/-- `SerialIntegratedPipeline` -/
def findSerial (buf : Bytes) : Found :=
  let offset := rabinseg buf (int32 buf.length)
  if offset = 0 then .failed
  else if toSize offset < buf.length then .split (toSize offset)
  else .whole

/-- `Fragment` -/
def findAnchor (buf : Bytes) : Found :=
  if anchorJump < buf.length then
    let offset := rabinseg (buf.drop anchorJump) (int32 (buf.length - anchorJump : ℕ))
    if offset = 0 then .failed
    else if toSize (int32 (offset + anchorJump)) < buf.length then
      .split (toSize (int32 (offset + anchorJump)))
    else .whole
  else .whole

/-- `FragmentRefine` -/
def findRefine (buf : Bytes) : Found :=
  let offset := rabinseg buf (int32 buf.length)
  if toSize offset < buf.length then .split (toSize offset) else .whole

/-- The `do` loop: the chunks split off and what is left. `mbuffer_split` asserts that the place lies
    inside the buffer. -/
def splitLoop (find : Bytes → Found) (buf : Bytes) : Option (List Bytes × Bytes) :=
  match find buf with
  | .failed => none
  | .whole => some ([], buf)
  | .split place =>
    if 0 < place ∧ place < buf.length then
      (splitLoop find (buf.drop place)).map fun (chunks, temp) => (buf.take place :: chunks, temp)
    else none
termination_by buf.length
decreasing_by rw [List.length_drop]; omega

/-- The `while` loop over the file: `temp` is left over from the last iteration, `input` is not read
    yet. -/
def readLoop (find : Bytes → Found) (temp input : Bytes) : Option (List Bytes) :=
  if maxbuf + temp.length > ssizeMax then none
  else if temp ++ input.take maxbuf = [] then some []
  else if input.take maxbuf = [] then some [temp ++ input.take maxbuf]
  else
    (splitLoop find (temp ++ input.take maxbuf)).bind fun (chunks, temp) =>
      (readLoop find temp (input.drop maxbuf)).map fun rest => chunks ++ rest
termination_by input.length
decreasing_by
  rename_i hread
  rcases input with _ | ⟨b, input⟩
  · exact absurd rfl hread
  · rw [List.length_drop, List.length_cons, maxbuf]; omega

/-- The chunks of `SerialIntegratedPipeline`. -/
def serialChunks (input : Bytes) : Option (List Bytes) := readLoop findSerial [] input

/-- The coarse chunks of `Fragment`. -/
def coarseChunks (input : Bytes) : Option (List Bytes) := readLoop findAnchor [] input

/-- The fine chunks into which `FragmentRefine` splits a coarse chunk. -/
def refine (buf : Bytes) : Option (List Bytes) :=
  (splitLoop findRefine buf).map fun (chunks, last) => chunks ++ [last]

/-- The fine chunks of the pipeline, by coarse chunk. -/
def fineChunks (input : Bytes) : Option (List (List Bytes)) :=
  (coarseChunks input).bind fun coarse => coarse.mapM refine

/-! ### The loops lose nothing -/

section Loops
variable {find : Bytes → Found}

theorem splitLoop_cases {buf temp : Bytes} {chunks : List Bytes}
    (h : splitLoop find buf = some (chunks, temp)) :
    (find buf = .whole ∧ chunks = [] ∧ temp = buf) ∨
      ∃ place rest, find buf = .split place ∧ 0 < place ∧ place < buf.length ∧
        splitLoop find (buf.drop place) = some (rest, temp) ∧ chunks = buf.take place :: rest := by
  rw [splitLoop] at h
  split at h
  · cases h
  · rename_i hfind
    simp only [Option.some.injEq, Prod.mk.injEq] at h
    exact .inl ⟨hfind, h.1.symm, h.2.symm⟩
  · rename_i place hfind
    split at h
    · rename_i hplace
      obtain ⟨⟨rest, temp'⟩, hrest, h⟩ := Option.map_eq_some_iff.mp h
      simp only [Prod.mk.injEq] at h
      obtain ⟨rfl, rfl⟩ := h
      exact .inr ⟨place, rest, hfind, hplace.1, hplace.2, hrest, rfl⟩
    · cases h

theorem readLoop_cases {temp input : Bytes} {chunks : List Bytes}
    (h : readLoop find temp input = some chunks) : maxbuf + temp.length ≤ ssizeMax ∧
    ((input = [] ∧ temp = [] ∧ chunks = []) ∨ (input = [] ∧ temp ≠ [] ∧ chunks = [temp]) ∨
      ∃ first temp' rest, input ≠ [] ∧ splitLoop find (temp ++ input.take maxbuf) = some (first, temp') ∧
        readLoop find temp' (input.drop maxbuf) = some rest ∧ chunks = first ++ rest) := by
  have htake : input.take maxbuf = [] → input = [] := fun h =>
    (List.take_eq_nil_iff.mp h).resolve_left (by decide)
  rw [readLoop] at h
  split at h
  · cases h
  · rename_i hsize
    refine ⟨not_lt.mp hsize, ?_⟩
    split at h
    · rename_i hnil
      obtain ⟨htemp, hread⟩ := List.append_eq_nil_iff.mp hnil
      exact .inl ⟨htake hread, htemp, (Option.some.inj h).symm⟩
    · rename_i hbuf
      split at h
      · rename_i hread
        rw [hread, List.append_nil] at hbuf h
        exact .inr (.inl ⟨htake hread, hbuf, (Option.some.inj h).symm⟩)
      · rename_i hread
        obtain ⟨⟨first, temp'⟩, hfirst, h⟩ := Option.bind_eq_some_iff.mp h
        obtain ⟨rest, hrest, rfl⟩ := Option.map_eq_some_iff.mp h
        refine .inr (.inr ⟨first, temp', rest, ?_, hfirst, hrest, rfl⟩)
        rintro rfl
        exact hread rfl

theorem splitLoop_whole {buf : Bytes} (h : find buf = .whole) : splitLoop find buf = some ([], buf) := by
  rw [splitLoop, h]

theorem splitLoop_flatten {buf temp : Bytes} {chunks : List Bytes}
    (h : splitLoop find buf = some (chunks, temp)) : chunks.flatten ++ temp = buf := by
  obtain ⟨-, rfl, rfl⟩ | ⟨place, rest, -, hpos, hlt, hrest, rfl⟩ := splitLoop_cases h
  · rfl
  · rw [List.flatten_cons, List.append_assoc, splitLoop_flatten hrest, List.take_append_drop]
termination_by buf.length
decreasing_by rw [List.length_drop]; omega

theorem readLoop_flatten {temp input : Bytes} {chunks : List Bytes}
    (h : readLoop find temp input = some chunks) : chunks.flatten = temp ++ input := by
  obtain ⟨-, ⟨rfl, rfl, rfl⟩ | ⟨rfl, -, rfl⟩ | ⟨first, temp', rest, hne, hfirst, hrest, rfl⟩⟩ :=
    readLoop_cases h
  · rfl
  · simp
  · rw [List.flatten_append, readLoop_flatten hrest, ← List.append_assoc, splitLoop_flatten hfirst,
      List.append_assoc, List.take_append_drop]
termination_by input.length
decreasing_by
  have := List.length_pos_iff.mpr hne
  rw [List.length_drop, maxbuf]; omega

/-- Whatever the search makes of a buffer that fits into memory has the property `P`. -/
structure Cuts (find : Bytes → Found) (P : Bytes → Prop) : Prop where
  piece : ∀ buf place, buf.length ≤ ssizeMax → find buf = .split place → 0 < place →
    place < buf.length → P (buf.take place)
  rest : ∀ buf, buf ≠ [] → buf.length ≤ ssizeMax → find buf = .whole → P buf

theorem splitLoop_cuts {P : Bytes → Prop} (hP : Cuts find P) {buf temp : Bytes} {chunks : List Bytes}
    (hne : buf ≠ []) (hsize : buf.length ≤ ssizeMax) (h : splitLoop find buf = some (chunks, temp)) :
    (∀ c ∈ chunks, P c) ∧ find temp = .whole ∧ P temp := by
  obtain ⟨hfind, rfl, rfl⟩ | ⟨place, rest, hfind, hpos, hlt, hrest, rfl⟩ := splitLoop_cases h
  · exact ⟨nofun, hfind, hP.rest temp hne hsize hfind⟩
  · have hdrop : buf.drop place ≠ [] := by
      rw [ne_eq, List.drop_eq_nil_iff]
      omega
    obtain ⟨hchunks, hwhole, htemp⟩ := splitLoop_cuts hP hdrop (by rw [List.length_drop]; omega) hrest
    refine ⟨fun c hc => ?_, hwhole, htemp⟩
    rcases List.mem_cons.mp hc with rfl | hc
    · exact hP.piece buf place hsize hfind hpos hlt
    · exact hchunks c hc
termination_by buf.length
decreasing_by rw [List.length_drop]; omega

theorem readLoop_cuts {P : Bytes → Prop} (hP : Cuts find P) {temp input : Bytes} {chunks : List Bytes}
    (htemp : temp ≠ [] → P temp) (h : readLoop find temp input = some chunks) : ∀ c ∈ chunks, P c := by
  obtain ⟨hsize, ⟨rfl, rfl, rfl⟩ | ⟨rfl, hne, rfl⟩ | ⟨first, temp', rest, hne, hfirst, hrest, rfl⟩⟩ :=
    readLoop_cases h
  · exact nofun
  · intro c hc
    rw [List.mem_singleton.mp hc]
    exact htemp hne
  · have hbuf : temp ++ input.take maxbuf ≠ [] := by
      rw [ne_eq, List.append_eq_nil_iff, List.take_eq_nil_iff]
      exact fun h => h.2.elim (by decide) hne
    have hlen : (temp ++ input.take maxbuf).length ≤ ssizeMax := by
      rw [List.length_append, List.length_take]
      omega
    obtain ⟨hchunks, -, htemp'⟩ := splitLoop_cuts hP hbuf hlen hfirst
    have hrest' := readLoop_cuts hP (fun _ => htemp') hrest
    intro c hc
    exact (List.mem_append.mp hc).elim (hchunks c) (hrest' c)
termination_by input.length
decreasing_by
  have := List.length_pos_iff.mpr hne
  rw [List.length_drop, maxbuf]; omega

/-- Wherever the search looks, a chunk has at least a byte and fits into memory. -/
theorem cuts_any (find : Bytes → Found) : Cuts find fun c => c ≠ [] ∧ c.length ≤ ssizeMax where
  piece buf place hsize _ hpos hlt := by
    have hlen : (buf.take place).length = place := by
      rw [List.length_take]
      omega
    exact ⟨List.length_pos_iff.mp (by omega), by omega⟩
  rest _ hne hsize _ := ⟨hne, hsize⟩

/-- A file that fits into one block is split once, and what is left is its last chunk. -/
theorem readLoop_block {input : Bytes} (hne : input ≠ []) (hlen : input.length ≤ maxbuf) :
    readLoop find [] input = (splitLoop find input).map fun (chunks, temp) => chunks ++ [temp] := by
  have hmax : maxbuf + maxbuf ≤ ssizeMax := by decide
  rw [readLoop, if_neg (by rw [List.length_nil]; omega), List.nil_append, List.take_of_length_le hlen,
    if_neg hne, if_neg hne, List.drop_eq_nil_iff.mpr hlen]
  cases hsplit : splitLoop find input with
  | none => rfl
  | some x =>
    obtain ⟨chunks, temp⟩ := x
    obtain ⟨-, -, htemp, -⟩ := splitLoop_cuts (cuts_any find) hne (by omega) hsplit
    have hle : temp.length ≤ input.length := by
      rw [← splitLoop_flatten hsplit, List.length_append]
      omega
    have hlast : readLoop find temp [] = some [temp] := by
      rw [readLoop, if_neg (by omega), List.take_nil, List.append_nil, if_neg htemp, if_pos rfl]
    simp only [Option.bind_some, Option.map_some, hlast]

end Loops

/-! ### The chunks -/

/-- What is known of a chunk that is hashed: it has at least a byte, and unless its size is negative as
    an `int`, it is the size itself that is an `int`. -/
structure Sized (c : Bytes) : Prop where
  nonempty : c ≠ []
  size : c.length ≤ ssizeMax
  int : c.length < 2 ^ 31 ∨ int32 c.length < 0

/-- A place that `rabinseg` gives, as a `size_t`. -/
theorem rabinseg_place {buf : Bytes} (hsize : buf.length ≤ ssizeMax)
    (h : toSize (rabinseg buf (int32 buf.length)) < buf.length) :
    toSize (rabinseg buf (int32 buf.length)) < 2 ^ 31 := by
  have hlt := int32_lt buf.length
  have hle := le_int32 buf.length
  have hmem := rabinseg_mem (p := buf) (n := int32 buf.length)
  rw [nwindow] at hmem
  by_cases hneg : rabinseg buf (int32 buf.length) < 0
  · have := le_toSize_of_neg hneg (by omega)
    rw [ssizeMax] at hsize
    omega
  · have := toSize_of_nonneg (not_lt.mp hneg) (by omega)
    omega

/-- A buffer in which `rabinseg` finds nothing. -/
theorem int_of_whole {buf : Bytes} (h : ¬toSize (rabinseg buf (int32 buf.length)) < buf.length) :
    buf.length < 2 ^ 31 ∨ int32 buf.length < 0 := by
  have hlt := int32_lt buf.length
  have hmem := rabinseg_mem (p := buf) (n := int32 buf.length)
  rw [nwindow] at hmem
  by_cases hneg : int32 buf.length < 0
  · exact .inr hneg
  · have := toSize_of_nonneg (z := rabinseg buf (int32 buf.length)) (by omega) (by omega)
    omega

theorem sized_take {buf : Bytes} {place : ℕ} (hpos : 0 < place) (hlt : place < buf.length)
    (hint : place < 2 ^ 31) (hsize : buf.length ≤ ssizeMax) : Sized (buf.take place) := by
  have hlen : (buf.take place).length = place := by
    rw [List.length_take]
    omega
  refine ⟨?_, by omega, .inl (by omega)⟩
  exact List.length_pos_iff.mp (by omega)

theorem cuts_serial : Cuts findSerial Sized where
  piece buf place hsize hfind hpos hlt := by
    unfold findSerial at hfind
    dsimp only at hfind
    split_ifs at hfind with h0 hplace
    obtain rfl := Found.split.inj hfind
    exact sized_take hpos hlt (rabinseg_place hsize hplace) hsize
  rest buf hne hsize hfind := by
    unfold findSerial at hfind
    dsimp only at hfind
    split_ifs at hfind with h0 hplace
    exact ⟨hne, hsize, int_of_whole hplace⟩

theorem cuts_refine : Cuts findRefine Sized where
  piece buf place hsize hfind hpos hlt := by
    unfold findRefine at hfind
    dsimp only at hfind
    split_ifs at hfind with hplace
    obtain rfl := Found.split.inj hfind
    exact sized_take hpos hlt (rabinseg_place hsize hplace) hsize
  rest buf hne hsize hfind := by
    unfold findRefine at hfind
    dsimp only at hfind
    split_ifs at hfind with hplace
    exact ⟨hne, hsize, int_of_whole hplace⟩

/-- The serial encoder cuts the input into chunks that make it up again. -/
theorem serialChunks_spec {input : Bytes} {chunks : List Bytes} (h : serialChunks input = some chunks) :
    chunks.flatten = input ∧ ∀ c ∈ chunks, Sized c :=
  ⟨readLoop_flatten h, readLoop_cuts cuts_serial (absurd rfl) h⟩

theorem refine_spec {buf : Bytes} {row : List Bytes} (hne : buf ≠ []) (hsize : buf.length ≤ ssizeMax)
    (h : refine buf = some row) : row ≠ [] ∧ row.flatten = buf ∧ ∀ c ∈ row, Sized c := by
  obtain ⟨⟨chunks, last⟩, hsplit, rfl⟩ := Option.map_eq_some_iff.mp h
  obtain ⟨hchunks, -, hlast⟩ := splitLoop_cuts cuts_refine hne hsize hsplit
  refine ⟨by simp, ?_, fun c hc => ?_⟩
  · rw [← splitLoop_flatten hsplit]
    simp
  · rcases List.mem_append.mp hc with hc | hc
    · exact hchunks c hc
    · rw [List.mem_singleton.mp hc]
      exact hlast

theorem mapM_refine_spec : ∀ {coarse : List Bytes} {rows : List (List Bytes)},
    (∀ c ∈ coarse, c ≠ [] ∧ c.length ≤ ssizeMax) → coarse.mapM refine = some rows →
    (∀ row ∈ rows, row ≠ []) ∧ rows.flatten.flatten = coarse.flatten ∧ ∀ c ∈ rows.flatten, Sized c
  | [], rows, _, h => by
      cases h
      exact ⟨nofun, rfl, nofun⟩
  | buf :: coarse, rows, hcoarse, h => by
      rw [List.mapM_cons] at h
      obtain ⟨row, hrow, h⟩ := Option.bind_eq_some_iff.mp h
      obtain ⟨rest, hrest, h⟩ := Option.bind_eq_some_iff.mp h
      cases h
      obtain ⟨hbuf, hsize⟩ := hcoarse buf (List.mem_cons_self ..)
      obtain ⟨h1, h2, h3⟩ := refine_spec hbuf hsize hrow
      obtain ⟨t1, t2, t3⟩ := mapM_refine_spec (fun c hc => hcoarse c (List.mem_cons_of_mem _ hc)) hrest
      refine ⟨?_, ?_, ?_⟩
      · intro r hr
        exact (List.mem_cons.mp hr).elim (fun he => he ▸ h1) (t1 r)
      · rw [List.flatten_cons, List.flatten_append, h2, t2, List.flatten_cons]
      · intro c hc
        rw [List.flatten_cons] at hc
        exact (List.mem_append.mp hc).elim (h3 c) (t3 c)

/-- So does the pipeline, and no coarse chunk is left without a fine one. -/
theorem fineChunks_spec {input : Bytes} {rows : List (List Bytes)} (h : fineChunks input = some rows) :
    (∀ row ∈ rows, row ≠ []) ∧ rows.flatten.flatten = input ∧ ∀ c ∈ rows.flatten, Sized c := by
  obtain ⟨coarse, hcoarse, h⟩ := Option.bind_eq_some_iff.mp h
  obtain ⟨h1, h2, h3⟩ := mapM_refine_spec (readLoop_cuts (cuts_any _) (absurd rfl) hcoarse) h
  exact ⟨h1, h2.trans (readLoop_flatten hcoarse), h3⟩

end Turkey.Fragment
