import Mathlib.Data.List.TakeWhile
import Mathlib.Data.Nat.Bitwise
import Mathlib.Tactic.IntervalCases
import ProgramFlow.Modifiers

/-! The text of a set of modifiers reads back as the set. The text is cut at the bars into the parts
it was put together from, each part gives its bits, and the bits of the parts make up the set again:
those that have a name one by one, the others together as a hexadecimal number. -/
namespace ProgramFlow

theorem mapM_map_eq_some {α β γ : Type} {f : α → β} {read : β → Option γ} {g : α → γ} {l : List α}
    (h : ∀ x ∈ l, read (f x) = some (g x)) : (l.map f).mapM read = some (l.map g) := by
  induction l with
  | nil => rfl
  | cons x rest ih =>
    rw [List.forall_mem_cons] at h
    simp [h.1, ih h.2]

namespace Text

theorem digit?_digitChar {base d : Nat} (hbase : base ≤ 16) (hd : d < base) :
    digit? base d.digitChar = some d := by
  have hsmall : d < 16 := by omega
  interval_cases d <;> simp [digit?, Nat.digitChar, hd]

theorem digitsFrom?_append_singleton (base : Nat) (c : Char) (cs : List Char) (acc : Nat) :
    digitsFrom? base acc (cs ++ [c]) =
      (digitsFrom? base acc cs).bind fun n => (digit? base c).map (n * base + ·) := by
  induction cs generalizing acc with
  | nil => cases h : digit? base c <;> simp [digitsFrom?, h]
  | cons c' rest ih => cases h : digit? base c' <;> simp [digitsFrom?, h, ih]

theorem digitsFrom?_toDigits {base : Nat} (hbase : 1 < base) (hle : base ≤ 16) (n : Nat) :
    digitsFrom? base 0 (Nat.toDigits base n) = some n := by
  induction n using Nat.strongRecOn with
  | ind n ih =>
    by_cases hn : n < base
    · rw [Nat.toDigits_of_lt_base hn]
      simp [digitsFrom?, digit?_digitChar hle hn]
    · have hmod : n % base < base := Nat.mod_lt n (by omega)
      have hless : n / base < n := Nat.div_lt_self (by omega) hbase
      rw [Nat.toDigits_of_base_le hbase (Nat.le_of_not_lt hn), digitsFrom?_append_singleton,
        ih _ hless, digit?_digitChar hle hmod]
      simp [Nat.div_add_mod']

/-- A numeral written in a base is read in this base. -/
theorem ofDigits?_toDigits {base : Nat} (hbase : 1 < base) (hle : base ≤ 16) (n : Nat) :
    ofDigits? base (Nat.toDigits base n) = some n := by
  have hread := digitsFrom?_toDigits hbase hle n
  cases hdigits : Nat.toDigits base n with
  | nil => exact absurd hdigits Nat.toDigits_ne_nil
  | cons c rest => rw [ofDigits?, ← hdigits, hread]

theorem fields_of_not_mem {sep : Char} {cs : List Char} (h : sep ∉ cs) : fields sep cs = [cs] := by
  induction cs with
  | nil => rfl
  | cons c rest ih =>
    rw [List.mem_cons, not_or] at h
    rw [fields, if_neg (Ne.symm h.1), ih h.2]

theorem fields_append {sep : Char} {cs : List Char} (h : sep ∉ cs) (rest : List Char) :
    fields sep (cs ++ sep :: rest) = cs :: fields sep rest := by
  induction cs with
  | nil => simp [fields]
  | cons c cs ih =>
    rw [List.mem_cons, not_or] at h
    rw [List.cons_append, fields, if_neg (Ne.symm h.1), ih h.2]

theorem trim_eq_nil_iff {cs : List Char} : trim cs = [] ↔ ∀ c ∈ cs, isBlank c = true := by
  rw [trim, List.reverse_eq_nil_iff, List.dropWhile_eq_nil_iff]
  simp only [List.mem_reverse]
  constructor
  · intro h
    rw [← List.dropWhile_eq_nil_iff]
    by_contra hne
    have hhead := List.head_dropWhile_not isBlank hne
    rw [h _ (List.head_mem hne)] at hhead
    cases hhead
  · exact fun h c hc => h c ((List.dropWhile_sublist isBlank).subset hc)

theorem isSome_digit?_of_mem {base acc n : Nat} {cs : List Char}
    (h : digitsFrom? base acc cs = some n) : ∀ c ∈ cs, (digit? base c).isSome = true := by
  induction cs generalizing acc with
  | nil => simp
  | cons c rest ih =>
    cases hd : digit? base c with
    | none => simp [digitsFrom?, hd] at h
    | some d =>
      simp only [digitsFrom?, hd] at h
      intro x hx
      rcases List.mem_cons.1 hx with rfl | hx
      · rw [hd]
        rfl
      · exact ih h x hx

theorem not_blank_of_digit {base : Nat} {c : Char} (h : (digit? base c).isSome = true) :
    isBlank c = false ∧ c ≠ '|' := by
  have hrange : 48 ≤ c.toNat ∧ c.toNat ≤ 57 ∨ 97 ≤ c.toNat ∧ c.toNat ≤ 102 ∨
      65 ≤ c.toNat ∧ c.toNat ≤ 70 := by
    by_contra hnot
    simp only [not_or] at hnot
    simp [digit?, hnot] at h
  constructor
  · simp only [isBlank, Bool.or_eq_false_iff, Bool.and_eq_false_iff, decide_eq_false_iff_not]
    omega
  · rintro rfl
    simp at hrange

structure IsWord (sep : Char) (cs : List Char) : Prop where
  ne_nil : cs ≠ []
  noSep : sep ∉ cs
  noBlank : ∀ c ∈ cs, isBlank c = false

theorem dropWhile_isBlank_append {cs : List Char} (hne : cs ≠ [])
    (h : ∀ c ∈ cs, isBlank c = false) (rest : List Char) :
    (cs ++ rest).dropWhile isBlank = cs ++ rest := by
  cases cs with
  | nil => exact absurd rfl hne
  | cons c cs =>
    rw [List.cons_append, List.dropWhile_cons_of_neg]
    rw [h c List.mem_cons_self]
    decide

theorem trim_append {cs before after : List Char} (hne : cs ≠ [])
    (h : ∀ c ∈ cs, isBlank c = false) (hbefore : ∀ c ∈ before, isBlank c = true)
    (hafter : ∀ c ∈ after, isBlank c = true) : trim (before ++ cs ++ after) = cs := by
  have hreverse : ∀ c ∈ cs.reverse, isBlank c = false := by simpa using h
  rw [trim, List.append_assoc, List.dropWhile_append_of_pos hbefore,
    dropWhile_isBlank_append hne h, List.reverse_append,
    List.dropWhile_append_of_pos (by simpa using hafter)]
  have hkeep := dropWhile_isBlank_append (by simpa using hne) hreverse []
  rw [List.append_nil] at hkeep
  rw [hkeep, List.reverse_reverse]

/-- Words put together with a separator between blanks are taken apart again. -/
theorem map_trim_fields {sep : Char} (hsep : isBlank sep = false) {words : List (List Char)}
    (hne : words ≠ []) (h : ∀ w ∈ words, IsWord sep w) {before : List Char}
    (hbefore : ∀ c ∈ before, isBlank c = true) :
    (fields sep (before ++ [' ', sep, ' '].intercalate words)).map trim = words := by
  have hnot : ∀ cs : List Char, (∀ c ∈ cs, isBlank c = true) → sep ∉ cs := by
    intro cs hcs hmem
    rw [hcs sep hmem] at hsep
    cases hsep
  have hspace : ∀ c ∈ [' '], isBlank c = true := by
    intro c hc
    rw [List.mem_singleton.1 hc]
    decide
  induction words generalizing before with
  | nil => exact absurd rfl hne
  | cons w rest ih =>
    have hw := h w List.mem_cons_self
    have hfirst : sep ∉ before ++ w := by simp [hnot _ hbefore, hw.noSep]
    cases rest with
    | nil =>
      have htrim : trim (before ++ w ++ []) = w :=
        trim_append hw.ne_nil hw.noBlank hbefore (by simp)
      rw [List.append_nil] at htrim
      rw [List.intercalate_singleton, fields_of_not_mem hfirst, List.map_singleton, htrim]
    | cons w' rest =>
      have hrest := ih (List.cons_ne_nil w' rest) (fun v hv => h v (List.mem_cons_of_mem w hv)) hspace
      have hcut : before ++ [' ', sep, ' '].intercalate (w :: w' :: rest) =
          (before ++ w ++ [' ']) ++ sep :: ([' '] ++ [' ', sep, ' '].intercalate (w' :: rest)) := by
        simp [List.intercalate_cons_cons]
      rw [hcut, fields_append (by simp [hnot _ hbefore, hw.noSep, hnot _ hspace]), List.map_cons,
        trim_append hw.ne_nil hw.noBlank hbefore hspace, hrest]

end Text

namespace Modifiers

theorem and_eq_or_and_eq_zero (bits : UInt16) {bit : UInt16} {i : Nat} (h : bit.toNat = 2 ^ i) :
    bits &&& bit = bit ∨ bits &&& bit = 0 := by
  have hand : (bits &&& bit).toNat = (bits.toNat.testBit i).toNat * 2 ^ i := by
    rw [UInt16.toNat_and, h, Nat.and_two_pow]
  cases htest : bits.toNat.testBit i with
  | true =>
    left
    rw [← UInt16.toNat_inj, hand, htest, h]
    simp
  | false =>
    right
    rw [← UInt16.toNat_inj, hand, htest]
    simp

theorem and_or_distrib (a b c : UInt16) : a &&& (b ||| c) = a &&& b ||| a &&& c := by
  rw [← UInt16.toNat_inj]
  simp only [UInt16.toNat_and, UInt16.toNat_or, Nat.and_or_distrib_left]

theorem foldl_or_filter (bits : UInt16) {flags : List (String × UInt16)}
    (h : ∀ flag ∈ flags, ∃ i, flag.2.toNat = 2 ^ i) (mask : UInt16) :
    ((flags.filter fun flag => has ⟨bits⟩ flag.2).map (·.2)).foldl (· ||| ·) (bits &&& mask) =
      bits &&& (flags.map (·.2)).foldl (· ||| ·) mask := by
  induction flags generalizing mask with
  | nil => rfl
  | cons flag rest ih =>
    obtain ⟨i, hi⟩ := h flag List.mem_cons_self
    have hrest := ih (fun f hf => h f (List.mem_cons_of_mem flag hf)) (mask ||| flag.2)
    rw [and_or_distrib] at hrest
    rcases and_eq_or_and_eq_zero bits hi with hset | hunset
    · rw [List.filter_cons_of_pos (by simp [has, hset]), List.map_cons, List.foldl_cons, List.map_cons,
        List.foldl_cons, ← hrest, hset]
    · have hne : (0 : UInt16) ≠ flag.2 := by
        have hpos : 0 < 2 ^ i := Nat.two_pow_pos i
        rintro h0
        rw [← h0, UInt16.toNat_zero] at hi
        omega
      rw [List.filter_cons_of_neg (by simp [has, hunset, hne]), List.map_cons, List.foldl_cons,
        ← hrest, hunset, UInt16.or_zero]

theorem foldl_named (m : Modifiers) :
    ((named.filter fun flag => m.has flag.2).map (·.2)).foldl (· ||| ·) 0 = m.bits &&& 0x1DFF := by
  have hsingle : ∀ flag ∈ named, ∃ i, flag.2.toNat = 2 ^ i := by
    have hpow : ∀ flag ∈ named, flag.2.toNat = 2 ^ flag.2.toNat.log2 := by decide
    exact fun flag hflag => ⟨_, hpow flag hflag⟩
  have hfold := foldl_or_filter m.bits hsingle 0
  rw [UInt16.and_zero] at hfold
  exact hfold

theorem named_or_unnamed (m : Modifiers) : m.bits &&& 0x1DFF ||| m.unnamed = m.bits := by
  rw [unnamed, ← and_or_distrib]
  exact UInt16.and_neg_one

theorem isWord_name : ∀ flag ∈ named, Text.IsWord '|' flag.1.toList := by
  have hchars : ∀ flag ∈ named, flag.1.toList ≠ [] ∧
      flag.1.toList.all (fun c => c ≠ '|' && !Text.isBlank c) = true := by decide
  intro flag hflag
  obtain ⟨hne, hall⟩ := hchars flag hflag
  simp only [List.all_eq_true, Bool.and_eq_true, decide_eq_true_eq, Bool.not_eq_true'] at hall
  exact ⟨hne, fun hbar => (hall '|' hbar).1 rfl, fun c hc => (hall c hc).2⟩

theorem partBits?_name : ∀ flag ∈ named, partBits? flag.1.toList = some flag.2 := by decide

theorem partBits?_hex (bits : UInt16) :
    partBits? ('0' :: 'x' :: Nat.toDigits 16 bits.toNat) = some bits := by
  have hread := Text.ofDigits?_toDigits (by decide : 1 < 16) (by decide) bits.toNat
  have hsmall : bits.toNat < 0x10000 := bits.toNat_lt
  have hbits : partBits?.hexBits? (Nat.toDigits 16 bits.toNat) = some bits := by
    simp [partBits?.hexBits?, hread, hsmall]
  unfold partBits?
  split
  · next digits hdigits =>
    -- no sign stands before the digits
    have hplus : Nat.toDigits 16 bits.toNat = '+' :: digits := by simpa using hdigits
    rw [hplus] at hread
    cases hread
  · next digits _ hdigits =>
    simp only [List.cons.injEq, true_and] at hdigits
    rw [← hdigits, hbits]
  · next hnot => exact absurd rfl (hnot _)

theorem isWord_hex (bits : UInt16) :
    Text.IsWord '|' ('0' :: 'x' :: Nat.toDigits 16 bits.toNat) := by
  have hdigits : ∀ c ∈ Nat.toDigits 16 bits.toNat, Text.isBlank c = false ∧ c ≠ '|' := by
    intro c hc
    have hread := Text.digitsFrom?_toDigits (by decide : 1 < 16) (by decide) bits.toNat
    exact Text.not_blank_of_digit (Text.isSome_digit?_of_mem hread c hc)
  refine ⟨List.cons_ne_nil _ _, ?_, ?_⟩
  · intro hmem
    simp only [List.mem_cons] at hmem
    rcases hmem with h | h | h
    · cases h
    · cases h
    · exact (hdigits '|' h).2 rfl
  · simp only [List.forall_mem_cons]
    exact ⟨by decide, by decide, fun c hc => (hdigits c hc).1⟩

theorem isWord_parts (m : Modifiers) : ∀ w ∈ m.parts.map String.toList, Text.IsWord '|' w := by
  have hnames : ∀ name ∈ (named.filter fun flag => m.has flag.2).map (·.1),
      Text.IsWord '|' name.toList := by
    intro name hname
    obtain ⟨flag, hflag, rfl⟩ := List.mem_map.1 hname
    exact isWord_name flag (List.mem_filter.1 hflag).1
  intro w hw
  obtain ⟨part, hpart, rfl⟩ := List.mem_map.1 hw
  unfold parts at hpart
  split at hpart
  · exact hnames part hpart
  · rcases List.mem_append.1 hpart with hpart | hpart
    · exact hnames part hpart
    · rw [List.mem_singleton.1 hpart, String.toList_ofList]
      exact isWord_hex m.unnamed

/-- Each part is read, and what the parts give is the whole set. -/
theorem exists_partBits (m : Modifiers) : ∃ bits,
    (m.parts.map String.toList).mapM partBits? = some bits ∧
      bits.foldl (· ||| ·) 0 = m.bits := by
  have hnames : (((named.filter fun flag => m.has flag.2).map (·.1)).map String.toList).mapM
      partBits? = some ((named.filter fun flag => m.has flag.2).map (·.2)) := by
    rw [List.map_map]
    apply mapM_map_eq_some
    intro flag hflag
    exact partBits?_name flag (List.mem_filter.1 hflag).1
  have hall := m.named_or_unnamed
  unfold parts
  split
  · next hzero =>
    rw [hzero, UInt16.or_zero] at hall
    exact ⟨_, hnames, m.foldl_named.trans hall⟩
  · refine ⟨(named.filter fun flag => m.has flag.2).map (·.2) ++ [m.unnamed], ?_, ?_⟩
    · rw [List.map_append, List.mapM_append, hnames, List.map_singleton, String.toList_ofList]
      simp [partBits?_hex]
    · rw [List.foldl_append, m.foldl_named]
      exact hall

/-- The text of a set of modifiers is read as that set, whatever its bits. -/
theorem ofText?_text (m : Modifiers) : ofText? m.text = some m := by
  obtain ⟨bits, hread, hfold⟩ := m.exists_partBits
  have hwords := m.isWord_parts
  have htext : m.text.toList = [' ', '|', ' '].intercalate (m.parts.map String.toList) := by
    rw [text, String.toList_intercalate]
    rfl
  have hset : some (⟨bits.foldl (· ||| ·) 0⟩ : Modifiers) = some m := by rw [hfold]
  cases hparts : m.parts.map String.toList with
  | nil =>
    rw [hparts] at hread htext
    obtain rfl : [] = bits := by simpa using hread
    rw [ofText?, htext]
    exact hset
  | cons w rest =>
    rw [hparts] at hread htext hwords
    have hw := hwords w List.mem_cons_self
    have hcut : ((Text.fields '|' ([] ++ m.text.toList)).map Text.trim) = w :: rest := by
      rw [htext]
      exact Text.map_trim_fields (by decide) (List.cons_ne_nil w rest) hwords (by simp)
    rw [List.nil_append] at hcut
    have hnonblank : (Text.trim m.text.toList).isEmpty = false := by
      rw [List.isEmpty_eq_false_iff, Ne, Text.trim_eq_nil_iff]
      intro hblank
      -- a blank text has no bar, so its only part would be blank as well
      have hbar : '|' ∉ m.text.toList := fun h => absurd (hblank '|' h) (by decide)
      rw [Text.fields_of_not_mem hbar, List.map_singleton, Text.trim_eq_nil_iff.2 hblank] at hcut
      exact hw.ne_nil (List.cons.inj hcut).1.symm
    rw [ofText?, hnonblank, hcut, hread]
    exact hset

end Modifiers

end ProgramFlow
