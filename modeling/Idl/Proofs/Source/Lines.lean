import Idl.Source.Lines
import Mathlib.Data.List.Basic
import Mathlib.Order.Monotone.Basic

/-!
# Lines of a text

The line starts of a text are its beginning and the places behind its line feeds, in increasing
order.  A search by halving tells which of them are not beyond an offset, so the line of an offset
is one more than the number of line feeds below it.  Offsets and line feeds are counted in bytes.
-/

namespace Idl

open List

variable {base start : Nat} {cs : List Char}

/-! ## Searching by halving -/

section Search

variable {numbers : Array Nat} {number low high : Nat}

/-- The number is where it was found; or it is missing, and the place parts the smaller numbers from
the larger ones. -/
def SearchEnd.Correct (numbers : Array Nat) (number : Nat) : SearchEnd → Prop
  | found i => numbers[i]? = some number
  | missing i => i ≤ numbers.size ∧
      ∀ j n, numbers[j]? = some n → n ≠ number ∧ (n < number ↔ j < i)

theorem getElem?_eq_getD {i : Nat} (h : i < numbers.size) :
    numbers[i]? = some (numbers.getD i 0) := by
  simp [h]

theorem lt_of_getElem?_of_increasing
    (hsorted : numbers.toList.Pairwise (· < ·)) {i j m n : Nat} (hi : numbers[i]? = some m)
    (hj : numbers[j]? = some n) (h : i < j) : m < n := by
  obtain ⟨hilt, rfl⟩ := Array.getElem?_eq_some_iff.1 hi
  obtain ⟨hjlt, rfl⟩ := Array.getElem?_eq_some_iff.1 hj
  exact pairwise_iff_getElem.1 hsorted i j hilt hjlt h

/-- What lies before the part that is searched is smaller than the number, and what lies behind it
is larger. -/
theorem bisect_correct
    (hsorted : numbers.toList.Pairwise (· < ·)) (hle : low ≤ high) (hsize : high ≤ numbers.size)
    (hbefore : ∀ j n, numbers[j]? = some n → j < low → n < number)
    (hbehind : ∀ j n, numbers[j]? = some n → high ≤ j → number < n) :
    (bisect numbers number low high).Correct numbers number := by
  fun_induction bisect numbers number low high with
  | case1 low high hlt middle there hfound =>
    exact hfound ▸ getElem?_eq_getD (show middle < numbers.size by omega)
  | case2 low high hlt middle there hne hsmaller ih =>
    have hthere : numbers[middle]? = some there := getElem?_eq_getD (by omega)
    refine ih (by omega) hsize (fun j n hj hlow => ?_) hbehind
    rcases Nat.lt_or_eq_of_le (Nat.le_of_lt_succ hlow) with hj' | rfl
    · have := lt_of_getElem?_of_increasing hsorted hj hthere hj'
      omega
    · cases hj.symm.trans hthere
      exact hsmaller
  | case3 low high hlt middle there hne hlarger ih =>
    have hthere : numbers[middle]? = some there := getElem?_eq_getD (by omega)
    refine ih (by omega) (by omega) hbefore fun j n hj hhigh => ?_
    rcases Nat.lt_or_eq_of_le hhigh with hj' | rfl
    · have := lt_of_getElem?_of_increasing hsorted hthere hj hj'
      omega
    · cases hj.symm.trans hthere
      omega
  | case4 low high hge =>
    refine ⟨by omega, fun j n hj => ?_⟩
    rcases Nat.lt_or_ge j low with hlow | hlow
    · have := hbefore j n hj hlow
      omega
    · have := hbehind j n hj (by omega)
      omega

end Search

namespace LineIndex

/-- The starts that are not beyond an offset are as many as the number of its line says. -/
theorem start_le_iff
    {index : LineIndex} (hsorted : index.starts.toList.Pairwise (· < ·)) (offset : Nat) :
    index.line offset ≤ index.starts.size ∧
      ∀ i start, index.starts[i]? = some start → (start ≤ offset ↔ i < index.line offset) := by
  have hcorrect : (bisect index.starts offset 0 index.starts.size).Correct index.starts offset := by
    refine bisect_correct hsorted (Nat.zero_le _) (Nat.le_refl _)
      (fun j n hj h => absurd h (Nat.not_lt_zero j)) fun j n hj h => ?_
    obtain ⟨hlt, -⟩ := Array.getElem?_eq_some_iff.1 hj
    omega
  unfold line
  generalize bisect index.starts offset 0 index.starts.size = ending at hcorrect
  cases ending with
  | found line =>
    obtain ⟨hlt, -⟩ := Array.getElem?_eq_some_iff.1 hcorrect
    refine ⟨hlt, fun i start hi => ?_⟩
    rcases Nat.lt_trichotomy i line with h | rfl | h
    · have := lt_of_getElem?_of_increasing hsorted hi hcorrect h
      dsimp only
      omega
    · cases hi.symm.trans hcorrect
      dsimp only
      omega
    · have := lt_of_getElem?_of_increasing hsorted hcorrect hi h
      dsimp only
      omega
  | missing next =>
    refine ⟨hcorrect.1, fun i start hi => ?_⟩
    obtain ⟨hne, hiff⟩ := hcorrect.2 i start hi
    dsimp only
    omega

/-! ## Line feeds -/

/-- The bytes of a text. -/
def bytes (cs : List Char) : List UInt8 := cs.flatMap String.utf8EncodeChar

/-- The byte that ends a line. -/
def lineFeed : UInt8 := 10

theorem bytes_cons (c : Char) (cs : List Char) :
    bytes (c :: cs) = String.utf8EncodeChar c ++ bytes cs := flatMap_cons

theorem toList_toUTF8 (source : String) : source.toUTF8.data.toList = bytes source.toList := by
  rw [String.toUTF8_eq_toByteArray, ← String.utf8Encode_toList, List.utf8Encode,
    data_toByteArray]
  rfl

/-- No other character has the byte of a line feed in it. -/
theorem lineFeed_notMem_utf8EncodeChar {c : Char} (h : c ≠ '\n') :
    lineFeed ∉ String.utf8EncodeChar c := by
  have hbyte : ∀ n, n ≠ 10 → n < 256 → lineFeed ≠ UInt8.ofNat n := by
    intro n hne hlt heq
    have hnat := congrArg UInt8.toNat heq
    rw [UInt8.toNat_ofNat_of_lt' (by simp only [UInt8.size]; omega)] at hnat
    exact hne hnat.symm
  have hc : c.val.toNat ≠ 10 := fun heq => h (Char.ext (UInt32.toNat_inj.1 heq))
  unfold String.utf8EncodeChar
  dsimp only
  generalize c.val.toNat = v at hc
  split
  · exact fun hmem => hbyte v hc (by omega) (mem_singleton.1 hmem)
  · -- the bytes of longer characters all have their highest bit set
    split
    · simp only [mem_cons, not_mem_nil, or_false, not_or]
      exact ⟨hbyte _ (by omega) (by omega), hbyte _ (by omega) (by omega)⟩
    · split
      · simp only [mem_cons, not_mem_nil, or_false, not_or]
        exact ⟨hbyte _ (by omega) (by omega), hbyte _ (by omega) (by omega),
          hbyte _ (by omega) (by omega)⟩
      · simp only [mem_cons, not_mem_nil, or_false, not_or]
        exact ⟨hbyte _ (by omega) (by omega), hbyte _ (by omega) (by omega),
          hbyte _ (by omega) (by omega), hbyte _ (by omega) (by omega)⟩

/-! ## Line starts -/

theorem pairwise_startsAfter (base : Nat) (cs : List Char) :
    (base :: startsAfter base cs).Pairwise (· < ·) := by
  induction cs generalizing base with
  | nil => exact pairwise_singleton _ _
  | cons c cs ih =>
    have hsize := c.utf8Size_pos
    obtain ⟨hnext, hmore⟩ := pairwise_cons.1 (ih (base + c.utf8Size))
    have hbehind : ∀ s ∈ startsAfter (base + c.utf8Size) cs, base < s := fun s hs => by
      have := hnext s hs
      omega
    simp only [startsAfter]
    split
    · exact pairwise_cons.2 ⟨forall_mem_cons.2 ⟨by omega, hbehind⟩, ih _⟩
    · exact pairwise_cons.2 ⟨hbehind, hmore⟩

theorem lt_of_mem_startsAfter (h : start ∈ startsAfter base cs) : base < start :=
  (pairwise_cons.1 (pairwise_startsAfter base cs)).1 start h

/-- Each start stands behind a line feed. -/
theorem exists_lineFeed_of_mem_startsAfter (h : start ∈ startsAfter base cs) :
    ∃ i, (bytes cs)[i]? = some lineFeed ∧ start = base + i + 1 := by
  induction cs generalizing base with
  | nil => cases h
  | cons c cs ih =>
    have hmore : start ∈ startsAfter (base + c.utf8Size) cs →
        ∃ i, (bytes (c :: cs))[i]? = some lineFeed ∧ start = base + i + 1 := by
      intro hmem
      obtain ⟨i, hi, rfl⟩ := ih hmem
      refine ⟨c.utf8Size + i, ?_, by omega⟩
      rw [bytes_cons, ← String.length_utf8EncodeChar,
        getElem?_append_right (Nat.le_add_right _ _), Nat.add_sub_cancel_left]
      exact hi
    simp only [startsAfter] at h
    split at h
    next hfeed =>
      subst hfeed
      rcases mem_cons.1 h with rfl | h
      · exact ⟨0, rfl, rfl⟩
      · exact hmore h
    next => exact hmore h

/-- The starts that are not beyond an offset are counted by the line feeds below it. -/
theorem countP_startsAfter (base offset : Nat) (cs : List Char) :
    (startsAfter base cs).countP (· ≤ base + offset) = ((bytes cs).take offset).count lineFeed := by
  induction cs generalizing base offset with
  | nil => simp [startsAfter, bytes]
  | cons c cs ih =>
    have hlength := String.length_utf8EncodeChar c
    rw [bytes_cons, take_append, count_append]
    simp only [startsAfter]
    rcases Nat.lt_or_ge offset c.utf8Size with hlt | hge
    · -- the offset is within the first character
      have hnone : (startsAfter (base + c.utf8Size) cs).countP (· ≤ base + offset) = 0 := by
        refine countP_eq_zero.2 fun s hs => ?_
        have := lt_of_mem_startsAfter hs
        simp only [decide_eq_true_eq]
        omega
      rw [hlength, Nat.sub_eq_zero_of_le (Nat.le_of_lt hlt), take_zero, count_nil, Nat.add_zero]
      split
      next hfeed =>
        subst hfeed
        obtain rfl : offset = 0 := Nat.lt_one_iff.1 hlt
        rw [countP_cons_of_neg (by simp; decide), hnone]
        rfl
      next hother =>
        rw [hnone, count_eq_zero.2]
        exact fun hmem => lineFeed_notMem_utf8EncodeChar hother (mem_of_mem_take hmem)
    · have hrest := ih (base + c.utf8Size) (offset - c.utf8Size)
      rw [Nat.add_assoc, Nat.add_sub_of_le hge] at hrest
      rw [hlength, take_of_length_le (by omega)]
      split
      next hfeed =>
        subst hfeed
        have hone : (String.utf8EncodeChar '\n').count lineFeed = 1 := by decide
        rw [countP_cons_of_pos (by simpa using hge), hrest, hone, Nat.add_comm]
      next hother =>
        rw [hrest, count_eq_zero.2 (lineFeed_notMem_utf8EncodeChar hother), Nat.zero_add]

theorem pairwise_starts (source : String) : (ofText source).starts.toList.Pairwise (· < ·) :=
  pairwise_startsAfter 0 source.toList

theorem countP_eq_of_split
    {xs : List Nat} {p : Nat → Bool} {n : Nat} (hn : n ≤ xs.length)
    (h : ∀ i x, xs[i]? = some x → (p x ↔ i < n)) : xs.countP p = n := by
  have hbefore : (xs.take n).countP p = n := by
    rw [countP_eq_length.2, length_take, Nat.min_eq_left hn]
    intro x hx
    obtain ⟨i, hi, rfl⟩ := mem_iff_getElem.1 hx
    rw [length_take] at hi
    exact (h i _ (by rw [getElem_take, getElem?_eq_getElem])).2 (by omega)
  have hbehind : (xs.drop n).countP p = 0 := by
    refine countP_eq_zero.2 fun x hx hp => ?_
    obtain ⟨i, hi, rfl⟩ := mem_iff_getElem.1 hx
    have := (h (n + i) _ (by rw [getElem_drop, getElem?_eq_getElem])).1 hp
    omega
  have hsplit : (xs.take n ++ xs.drop n).countP p = _ := countP_append
  rwa [take_append_drop, hbefore, hbehind] at hsplit

/-! ## Lines -/

/-- The line feeds of the text at byte positions below the offset. -/
def lineFeedsBelow (source : String) (offset : Nat) : Nat :=
  (source.toUTF8.data.toList.take offset).count lineFeed

theorem line_eq (source : String) (offset : Nat) :
    (ofText source).line offset = lineFeedsBelow source offset + 1 := by
  obtain ⟨hle, hiff⟩ := start_le_iff (pairwise_starts source) offset
  have hcount : (ofText source).starts.toList.countP (· ≤ offset) =
      (ofText source).line offset := by
    refine countP_eq_of_split hle fun i start hi => ?_
    rw [decide_eq_true_eq]
    exact hiff i start (by rwa [← Array.getElem?_toList])
  have hbelow := countP_startsAfter 0 offset source.toList
  rw [Nat.zero_add, ← toList_toUTF8] at hbelow
  rw [← hcount, lineFeedsBelow, ← hbelow]
  exact countP_cons_of_pos (by simp)

theorem monotone_line (source : String) : Monotone (ofText source).line := by
  intro offset later h
  rw [line_eq, line_eq, lineFeedsBelow, lineFeedsBelow]
  exact Nat.succ_le_succ ((take_prefix_take_left h).sublist.count_le _)

/-- The line of the offset starts here: at the beginning of the text or behind a line feed, and with
no line feed from here to the offset. -/
structure StartsLine (source : String) (start offset : Nat) : Prop where
  start_le : start ≤ offset
  behind : start = 0 ∨ source.toUTF8.data.toList[start - 1]? = some lineFeed
  between : lineFeedsBelow source start = lineFeedsBelow source offset

theorem startsLine_of_line
    {source : String} {offset : Nat}
    (h : (ofText source).starts[(ofText source).line offset - 1]? = some start) :
    StartsLine source start offset := by
  have hline := line_eq source offset
  have hstart : start ≤ offset :=
    ((start_le_iff (pairwise_starts source) offset).2 _ start h).2 (by omega)
  refine ⟨hstart, ?_, ?_⟩
  · have hmem : start ∈ 0 :: startsAfter 0 source.toList := by
      rw [← Array.getElem?_toList] at h
      exact mem_of_getElem? h
    rcases mem_cons.1 hmem with rfl | hmem
    · exact .inl rfl
    · obtain ⟨i, hi, rfl⟩ := exists_lineFeed_of_mem_startsAfter hmem
      refine .inr ?_
      rwa [toList_toUTF8, Nat.zero_add, Nat.add_sub_cancel]
  · -- the start is on its own line, so no line before that of the offset has it
    have hown := ((start_le_iff (pairwise_starts source) start).2 _ start h).1 (Nat.le_refl _)
    have hle := monotone_line source hstart
    simp only [line_eq] at hown hle
    omega

/-- The line of an offset, counted from one, is one more than the number of line feeds below it, and
its column, counted from one, is how far it is from where that line starts.  No subtraction on the
way goes below zero, and no start is looked up that is not there. -/
theorem line_is_exact (source : String) (offset : Nat) :
    (ofText source).line offset = lineFeedsBelow source offset + 1 ∧
      ((ofText source).position offset).line = (ofText source).line offset ∧
      (∃ start, (ofText source).starts[(ofText source).line offset - 1]? = some start ∧
        StartsLine source start offset ∧ 1 ≤ ((ofText source).position offset).column ∧
        start + ((ofText source).position offset).column - 1 = offset) ∧
      Monotone (ofText source).line := by
  have hline := line_eq source offset
  have hlt : (ofText source).line offset - 1 < (ofText source).starts.size := by
    have := (start_le_iff (pairwise_starts source) offset).1
    omega
  have hstart := Array.getElem?_eq_getElem hlt
  have hstarts := startsLine_of_line hstart
  refine ⟨hline, rfl, ⟨_, hstart, hstarts, Nat.le_add_left _ _, ?_⟩, monotone_line source⟩
  have := hstarts.start_le
  simp only [position, lineStart, hstart, Option.getD_some]
  omega

end LineIndex

end Idl
