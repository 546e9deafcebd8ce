import ClockedC.Proofs.LocalSignals

/-!
# The initial contents of arrays

The initializer of an array becomes a constant: one bit string for each element that the array has
room for, and zeros for all others. This file says which numbers these bit strings are.

* `ofDigitChars_bitChars`: binary digits give back the number modulo a power of two.
* `Element.Denotes` says which integer an element of an initializer stands for.
* `Element.Denotes.binaryValue_bits`: the bit string of an element is the code of its integer.
* `InitialContents` gathers what holds of the bit strings of an initializer.
* `arrayEvents_contents`: the constant that is written has the initial contents, and elements that
  are dropped are told.
-/

namespace ClockedC

/-! ## Binary digits -/

/-- A text of `width` binary digits. -/
def IsBitString (width : Nat) (code : String) : Prop :=
  code.length = width ∧ ∀ c ∈ code.toList, c = '0' ∨ c = '1'

/-- The number that a text of binary digits stands for, without a sign. -/
def binaryValue (code : String) : Nat :=
  Nat.ofDigitChars 2 code.toList 0

theorem ofDigitChars_two_eq (cs : List Char) (n : Nat) :
    Nat.ofDigitChars 2 cs n = Nat.pow 2 cs.length * n + Nat.ofDigitChars 2 cs 0 := by
  induction cs generalizing n with
  | nil => exact (Nat.one_mul n).symm
  | cons c cs ih =>
    have hpow : Nat.pow 2 (cs.length + 1) = Nat.pow 2 cs.length * 2 := Nat.pow_succ 2 _
    rw [Nat.ofDigitChars_cons, Nat.ofDigitChars_cons, ih, ih (2 * 0 + _), List.length_cons, hpow,
      Nat.mul_add, Nat.mul_assoc, Nat.mul_zero, Nat.zero_add, Nat.add_assoc]

theorem toNat_bitAt (n i : Nat) : (bitAt n i).toNat - '0'.toNat = n / Nat.pow 2 i % 2 := by
  have hbit : (n.testBit i).toNat = n / Nat.pow 2 i % 2 := Nat.toNat_testBit n i
  rw [← hbit, bitAt]
  cases n.testBit i <;> rfl

/-- Digits that are read back give what was written, as far as there was room for it. -/
theorem ofDigitChars_bitChars (width n : Nat) :
    Nat.ofDigitChars 2 (bitChars width n) 0 = n % Nat.pow 2 width := by
  induction width with
  | zero => exact (Nat.mod_one n).symm
  | succ width ih =>
    have hsplit : n % Nat.pow 2 (width + 1) =
        n % Nat.pow 2 width + Nat.pow 2 width * (n / Nat.pow 2 width % 2) := Nat.mod_pow_succ
    rw [bitChars, Nat.ofDigitChars_cons, ofDigitChars_two_eq, length_bitChars, toNat_bitAt, ih,
      hsplit, Nat.mul_zero, Nat.zero_add, Nat.add_comm]

theorem eq_zero_or_one_of_mem_bitChars {width n : Nat} {c : Char} (h : c ∈ bitChars width n) :
    c = '0' ∨ c = '1' := by
  induction width with
  | zero => cases h
  | succ width ih =>
    rcases List.mem_cons.1 h with rfl | htail
    · unfold bitAt
      split
      · exact Or.inr rfl
      · exact Or.inl rfl
    · exact ih htail

theorem isBitString_bitString (width n : Nat) : IsBitString width (bitString width n) := by
  refine ⟨?_, fun c hc => ?_⟩
  · rw [bitString, String.length_ofList, length_bitChars]
  · rw [bitString, String.toList_ofList] at hc
    exact eq_zero_or_one_of_mem_bitChars hc

theorem binaryValue_bitString (width n : Nat) :
    binaryValue (bitString width n) = n % Nat.pow 2 width := by
  rw [binaryValue, bitString, String.toList_ofList, ofDigitChars_bitChars]

/-- The bit string of the two's complement code of an integer is this integer modulo a power of
two. -/
theorem binaryValue_twosComplement (width : Nat) (value : Int) :
    (binaryValue (bitString width (twosComplement width value)) : Int) =
      value % (Nat.pow 2 width : Nat) := by
  have hshift : 1 <<< width = Nat.pow 2 width := Nat.one_shiftLeft width
  have hpos : 0 < Nat.pow 2 width := Nat.pow_pos (by decide)
  have hnonneg : 0 ≤ value % (Nat.pow 2 width : Nat) := Int.emod_nonneg _ (by omega)
  rw [binaryValue_bitString, twosComplement, hshift, Int.natCast_emod, Int.toNat_of_nonneg hnonneg,
    Int.emod_emod_of_dvd _ (Int.dvd_refl _)]

/-! ## The integers of elements -/

/-- The integer that an element of an initializer stands for. A number is written in decimal digits
with at most a minus sign before them, and is in the range of signed 64-bit words. A character
stands for its code point, and a name counts as zero. -/
inductive Element.Denotes : Element → Int → Prop
  | plain (ds : List Char) (nonempty : ds ≠ []) (digits : ds.all Char.isDigit = true)
      (range : Nat.ofDigitChars 10 ds 0 < 0x8000000000000000) :
      Denotes (.number (String.ofList ds)) (Nat.ofDigitChars 10 ds 0)
  | negated (ds : List Char) (nonempty : ds ≠ []) (digits : ds.all Char.isDigit = true)
      (range : Nat.ofDigitChars 10 ds 0 ≤ 0x8000000000000000) :
      Denotes (.number (String.ofList ('-' :: ds))) (-(Nat.ofDigitChars 10 ds 0 : Int))
  | character (c : Char) : Denotes (.character c) c.toNat
  | name (n : String) : Denotes (.name n) 0

theorem natural?_of_digits {ds : List Char} (nonempty : ds ≠ [])
    (digits : ds.all Char.isDigit = true) : natural? ds = some (Nat.ofDigitChars 10 ds 0) := by
  unfold natural?
  rw [digits, List.isEmpty_eq_false_iff.2 nonempty]
  rfl

theorem signed64?_neg_of_natural? {ds : List Char} {n : Nat} (h : natural? ds = some n)
    (hn : n ≤ 0x8000000000000000) :
    signed64? (String.ofList ('-' :: ds)) = some (-(n : Int)) := by
  have hrange : leastSigned ≤ -(n : Int) ∧ -(n : Int) ≤ greatestSigned := by
    unfold leastSigned greatestSigned
    omega
  rw [signed64?, String.toList_ofList, splitSign]
  dsimp only
  rw [h]
  exact if_pos hrange

theorem signed64?_toString {n : Nat} (hn : n < 0x8000000000000000) :
    signed64? (toString n) = some (n : Int) := by
  have hdigits : (Nat.toDigits 10 n).all Char.isDigit = true := by
    refine List.all_eq_true.2 fun c hc => isDigit_of_mem_toString (n := n) ?_
    rwa [Nat.toString_eq_repr, Nat.toList_repr]
  have hvalue := natural?_of_digits Nat.toDigits_ne_nil hdigits
  rw [Nat.ofDigitChars_ten_toDigits] at hvalue
  have htext : toString n = String.ofList (Nat.toDigits 10 n) := by
    rw [← String.toList_inj, String.toList_ofList, Nat.toString_eq_repr, Nat.toList_repr]
  rw [htext]
  exact signed64?_of_natural? hvalue hn

theorem toNat_lt_greatestSigned (c : Char) : c.toNat < 0x8000000000000000 := by
  have hvalid : c.toNat < 0xd800 ∨ 0xdfff < c.toNat ∧ c.toNat < 0x110000 := c.valid
  omega

/-! ## The bit strings of elements -/

theorem ScalarType.encoded?_of_signed64? {type : ScalarType} (htype : type = .int ∨ type = .char)
    {text : String} {v : Int} (h : signed64? text = some v) :
    type.encoded? text = some (bitString type.width (twosComplement type.width v)) := by
  have hwhole : wholeValue? text = some v := by
    rw [wholeValue?, h]
    rfl
  rcases htype with rfl | rfl
  · rw [encoded?, hwhole]
    rfl
  · rw [encoded?, hwhole]
    rfl

theorem ScalarType.isBitString_encoded? {type : ScalarType} {text code : String}
    (h : type.encoded? text = some code) : IsBitString type.width code := by
  unfold encoded? at h
  split at h
  all_goals
    obtain ⟨_, -, rfl⟩ := Option.map_eq_some_iff.1 h
    exact isBitString_bitString _ _

namespace Element

theorem isBitString_bits (type : ScalarType) (e : Element) :
    IsBitString type.width (e.bits type) := by
  have hzero : IsBitString type.width type.zeroCode := isBitString_bitString _ 0
  have hencoded (text : String) :
      IsBitString type.width ((type.encoded? text).getD type.zeroCode) := by
    cases htext : type.encoded? text with
    | none => exact hzero
    | some code => exact ScalarType.isBitString_encoded? htext
  cases e with
  | number text => exact hencoded text
  | character c => exact hencoded (toString c.toNat)
  | name n => exact hzero

/-- The bit string of an element is the code of the integer that it stands for. -/
theorem Denotes.binaryValue_bits {type : ScalarType} (htype : type = .int ∨ type = .char)
    {e : Element} {v : Int} (h : e.Denotes v) :
    (binaryValue (e.bits type) : Int) = v % (Nat.pow 2 type.width : Nat) := by
  have hencoded {text : String} (hvalue : signed64? text = some v) :
      (binaryValue ((type.encoded? text).getD type.zeroCode) : Int) =
        v % (Nat.pow 2 type.width : Nat) := by
    rw [ScalarType.encoded?_of_signed64? htype hvalue]
    exact binaryValue_twosComplement type.width v
  cases h with
  | plain ds nonempty digits range =>
    exact hencoded (signed64?_of_natural? (natural?_of_digits nonempty digits) range)
  | negated ds nonempty digits range =>
    exact hencoded (signed64?_neg_of_natural? (natural?_of_digits nonempty digits) range)
  | character c => exact hencoded (signed64?_toString (toNat_lt_greatestSigned c))
  | name n =>
    rw [bits, ScalarType.zeroCode, binaryValue_bitString, Nat.zero_mod, Int.zero_emod]
    rfl

end Element

/-! ## The constant with the initial contents -/

/-- What holds of the bit strings that are written for the elements of an initializer. -/
structure InitialContents (type : ScalarType) (size : Nat) (elements : List Element)
    (codes : List String) : Prop where
  /-- There is one for each element, as long as the array has room for it. -/
  count : codes.length = min elements.length size
  /-- Each has the width of the type. -/
  bits : ∀ code ∈ codes, IsBitString type.width code
  /-- Each is the integer of the element in its place, without the digits that do not fit. -/
  value : ∀ (i : Nat) (e : Element) (v : Int) (code : String), elements[i]? = some e →
    e.Denotes v → codes[i]? = some code →
      (binaryValue code : Int) = v % (Nat.pow 2 type.width : Nat)

theorem initialContents_take {type : ScalarType} (htype : type = .int ∨ type = .char) (size : Nat)
    (elements : List Element) :
    InitialContents type size elements ((elements.take size).map (Element.bits type)) where
  count := by
    rw [List.length_map, List.length_take, Nat.min_comm]
  bits := by
    intro code hcode
    obtain ⟨e, -, rfl⟩ := List.mem_map.1 hcode
    exact e.isBitString_bits type
  value := by
    intro i e v code he hv hcode
    rw [List.getElem?_map] at hcode
    obtain ⟨e', he', rfl⟩ := Option.map_eq_some_iff.1 hcode
    rw [List.getElem?_take] at he'
    split at he'
    · obtain rfl : e = e' := Option.some.inj (he.symm.trans he')
      exact hv.binaryValue_bits htype
    · cases he'

theorem initialEntries_eq (type : ScalarType) (size : Nat) (elements : List Element) :
    initialEntries type size elements =
      (((elements.take size).map (Element.bits type)).map fun code => "\"" ++ code ++ "\"") ++
        if elements.length < size then ["others => (others => '0')"] else [] := by
  have hkept : (elements.take size).length < size ↔ elements.length < size := by
    rw [List.length_take]
    omega
  rw [initialEntries, List.map_map]
  simp only [hkept]
  rfl

theorem log_arrayEvents (name : String) (type : ScalarType) (size : Nat) (elements : List Element) :
    Event.log (arrayEvents name type size (some elements)) = initialNotices name size elements := by
  have hnotices (notices : List Notice) : (notices.map Event.notice).filterMap Event.notice? =
      notices := by
    rw [List.filterMap_map]
    exact List.filterMap_some
  rw [Event.log, arrayEvents, List.filterMap_cons_none rfl, List.filterMap_append, hnotices]
  exact List.append_nil _

/-- That there are more elements than an array has room for is told exactly if it is so. -/
theorem excessElements_mem_initialNotices {name : String} {size : Nat} {elements : List Element}
    {array : String} {count n : Nat} :
    Notice.excessElements array count n ∈ initialNotices name size elements ↔
      size < elements.length ∧ array = name ∧ count = elements.length ∧ n = size := by
  have hothers : Notice.excessElements array count n ∉
      (elements.take size).filterMap (Element.notice? name) := by
    intro hmem
    obtain ⟨e, -, he⟩ := List.mem_filterMap.1 hmem
    cases e <;> cases he
  rw [initialNotices, List.mem_append, or_iff_left hothers]
  split
  · next hexcess => simp [hexcess]
  · next hfits => simp [hfits]

/-- **The constant of an array has its initial contents.** An array of `int` or `char` is written
with a bit string for each element that it has room for, which is the integer of the element modulo
a power of two, and with zeros for all others if there are any. Elements are dropped if and only if
there is a notice of it. -/
theorem arrayEvents_contents {type : ScalarType} (htype : type = .int ∨ type = .char)
    (name : String) {size : Nat} (hsize : size < 0x8000000000000000) (elements : List Element) :
    (∃ codes, InitialContents type size elements codes ∧
      Event.lines (arrayEvents name type size (some elements)) =
        [arrayTypeLine name ((size : Int) - 1) type, "  -- Array initialization",
          arrayConstantLine name (commaSeparated ((codes.map fun code => "\"" ++ code ++ "\"") ++
            if elements.length < size then ["others => (others => '0')"] else [])),
          arraySignalLine name (" := " ++ name ++ "_init")]) ∧
    ∀ array count n, Notice.excessElements array count n ∈
        Event.log (arrayEvents name type size (some elements)) ↔
      size < elements.length ∧ array = name ∧ count = elements.length ∧ n = size := by
  refine ⟨⟨_, initialContents_take htype size elements, ?_⟩, fun array count n => ?_⟩
  · rw [lines_arrayEvents_some, lastIndex_of_lt hsize, initialEntries_eq]
  · rw [log_arrayEvents]
    exact excessElements_mem_initialNotices

/-- The least integer, a character that does not fit into seven bits and a name, in an array that
has room for one more. -/
theorem arrayEvents_contents_least :
    Element.Denotes (.number "-9223372036854775808") (-9223372036854775808) ∧
    ∃ codes, InitialContents .char 4
        [.number "-9223372036854775808", .character 'é', .name "n"] codes ∧
      Event.lines (arrayEvents "a" .char 4
          (some [.number "-9223372036854775808", .character 'é', .name "n"])) =
        [arrayTypeLine "a" 3 .char, "  -- Array initialization",
          arrayConstantLine "a" (commaSeparated ((codes.map fun code => "\"" ++ code ++ "\"") ++
            ["others => (others => '0')"])),
          arraySignalLine "a" " := a_init"] :=
  ⟨.negated "9223372036854775808".toList (by decide) (by decide) (by decide),
    (arrayEvents_contents (.inr rfl) "a" (by decide)
      [.number "-9223372036854775808", .character 'é', .name "n"]).1⟩

end ClockedC
