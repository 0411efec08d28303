import Mathlib.Data.List.TakeWhile
import ProgramFlow.Yaml.Layout

/-! The tokens of block mappings that are written line by line. A line holds a key behind its
indentation, a colon, and a word or nothing. The scanner reads such a line in two or three tokens
and stands behind the indentation of the next one, so that its way through a text is told line by
line: `Scans` says where it gets from the start of a line. A mapping that ends is noticed only at
the next line that is not as deep. -/
namespace ProgramFlow.Yaml

def isLetter (c : Char) : Bool := c.isAlphanum || c = '_'

theorem toNat_of_isLetter {c : Char} (h : isLetter c = true) :
    48 ≤ c.toNat ∧ c.toNat ≤ 57 ∨ 65 ≤ c.toNat ∧ c.toNat ≤ 90 ∨ c.toNat = 95 ∨
      97 ≤ c.toNat ∧ c.toNat ≤ 122 := by
  rw [isLetter, Bool.or_eq_true, decide_eq_true_eq] at h
  rcases h with h | rfl
  · rcases Bool.or_eq_true_iff.1 h with h | h
    · rcases Bool.or_eq_true_iff.1 h with h | h
      · obtain ⟨hlow, hhigh⟩ := of_decide_eq_true h
        exact .inr (.inl ⟨UInt32.le_iff_toNat_le.1 hlow, UInt32.le_iff_toNat_le.1 hhigh⟩)
      · obtain ⟨hlow, hhigh⟩ := Bool.and_eq_true_iff.1 h
        exact .inr (.inr (.inr ⟨UInt32.le_iff_toNat_le.1 (of_decide_eq_true hlow),
          UInt32.le_iff_toNat_le.1 (of_decide_eq_true hhigh)⟩))
    · exact .inl (Char.isDigit_iff_toNat.1 h)
  · exact .inr (.inr (.inl rfl))

section Letters

variable {c : Char} (h : isLetter c = true)

include h

theorem ne_of_isLetter {d : Char} (hd : isLetter d = false) : c ≠ d := by
  rintro rfl
  rw [h] at hd
  cases hd

theorem not_isBlank : isBlank c = false := by
  have hspace : c ≠ ' ' := ne_of_isLetter h (by decide)
  have htab : c ≠ '\t' := ne_of_isLetter h (by decide)
  simp [isBlank, hspace, htab]

theorem not_isBreak : isBreak c = false := by
  have hfeed : c ≠ '\n' := ne_of_isLetter h (by decide)
  have hreturn : c ≠ '\r' := ne_of_isLetter h (by decide)
  have hrange := toNat_of_isLetter h
  simp only [isBreak, isSeparator, hfeed, hreturn, decide_false, Bool.false_or,
    Bool.or_eq_false_iff, decide_eq_false_iff_not]
  omega

theorem not_atGap (rest : List Char) : atGap (c :: rest) = false := by
  rw [atGap, not_isBlank h, not_isBreak h]
  rfl

theorem not_isOrderMark : Layout.isOrderMark c = false := by
  have hrange := toNat_of_isLetter h
  rw [Layout.isOrderMark, decide_eq_false_iff_not]
  omega

theorem isPrintable_of_isLetter : isPrintable c = true := by
  have hrange := toNat_of_isLetter h
  simp only [isPrintable, Bool.or_eq_true, Bool.and_eq_true, decide_eq_true_eq]
  omega

theorem utf8Size_of_isLetter : c.utf8Size = 1 := by
  have hrange := toNat_of_isLetter h
  rw [Char.utf8Size_eq_one_iff]
  change c.toNat ≤ 127
  omega

theorem not_atMarker (rest : List Char) : atMarker (c :: rest) = false := by
  have hdash : c ≠ '-' := ne_of_isLetter h (by decide)
  have hdot : c ≠ '.' := ne_of_isLetter h (by decide)
  unfold atMarker
  split
  · next heq =>
    cases heq
    simp [hdash, hdot]
  · rfl

end Letters

structure IsNarrow (c : Char) : Prop where
  not_isBreak : isBreak c = false
  utf8Size_eq : c.utf8Size = 1

theorem isNarrow_blank : IsNarrow ' ' := ⟨by decide, by decide⟩

structure IsWord (cs : List Char) : Prop where
  ne_nil : cs ≠ []
  letters : ∀ c ∈ cs, isLetter c = true

theorem IsWord.exists_cons {cs : List Char} (h : IsWord cs) :
    ∃ c rest, cs = c :: rest ∧ isLetter c = true := by
  obtain ⟨c, rest, rfl⟩ := List.exists_cons_of_ne_nil h.ne_nil
  exact ⟨c, rest, rfl, h.letters c List.mem_cons_self⟩

theorem IsWord.isNarrow {cs : List Char} (h : IsWord cs) : ∀ c ∈ cs, IsNarrow c := fun c hc =>
  ⟨not_isBreak (h.letters c hc), utf8Size_of_isLetter (h.letters c hc)⟩

/-- A key has room for its colon. -/
structure IsKey (cs : List Char) : Prop extends IsWord cs where
  short : cs.length ≤ 1024

/-- A word goes up to a gap, or to a colon with a gap behind it. -/
theorem plainWord?_append {word rest : List Char} (hword : ∀ c ∈ word, isLetter c = true)
    (hrest : plainWord? false rest = some ([], rest)) :
    plainWord? false (word ++ rest) = some (word, rest) := by
  induction word with
  | nil => exact hrest
  | cons c more ih =>
    obtain ⟨hc, hmore⟩ := List.forall_mem_cons.1 hword
    have hcolon : c ≠ ':' := ne_of_isLetter hc (by decide)
    rw [List.cons_append, plainWord?, not_atGap hc, ih hmore]
    simp [hcolon]

section Lines

def indentOf (text : List Char) : Nat := (text.takeWhile (· = ' ')).length

def unindented (text : List Char) : List Char := text.dropWhile (· = ' ')

theorem length_unindented_le (text : List Char) : (unindented text).length ≤ text.length :=
  (List.dropWhile_sublist _).length_le

theorem unindented_cons_of_ne {c : Char} (hc : c ≠ ' ') (rest : List Char) :
    unindented (c :: rest) = c :: rest := by
  simp [unindented, hc]

/-- Behind the indentation there is a letter, or the text is at its end. -/
def IsLined (text : List Char) : Prop :=
  unindented text = [] ∨ ∃ c rest, unindented text = c :: rest ∧ isLetter c = true

theorem IsLined.isLetter_of_ne {c : Char} {rest : List Char} (h : IsLined (c :: rest))
    (hc : c ≠ ' ') : isLetter c = true := by
  rw [IsLined, unindented_cons_of_ne hc] at h
  rcases h with h | ⟨d, more, h, hd⟩
  · cases h
  · cases h
    exact hd

def entryText (key word : List Char) : List Char :=
  key ++ ':' :: (if word = [] then [] else ' ' :: word) ++ ['\n']

def lineText (indent : Nat) (key word : List Char) : List Char :=
  List.replicate indent ' ' ++ entryText key word

theorem unindented_lineText {key : List Char} (hkey : IsWord key) (indent : Nat)
    (word text : List Char) :
    unindented (lineText indent key word ++ text) = entryText key word ++ text := by
  obtain ⟨c, more, rfl, hc⟩ := hkey.exists_cons
  have hspace : c ≠ ' ' := ne_of_isLetter hc (by decide)
  simp [unindented, lineText, entryText, hspace]

theorem indentOf_lineText {key : List Char} (hkey : IsWord key) (indent : Nat)
    (word text : List Char) : indentOf (lineText indent key word ++ text) = indent := by
  obtain ⟨c, more, rfl, hc⟩ := hkey.exists_cons
  have hspace : c ≠ ' ' := ne_of_isLetter hc (by decide)
  simp [indentOf, lineText, entryText, hspace]

end Lines

namespace Cursor

theorem skip_append {cs : List Char} (hcs : ∀ c ∈ cs, IsNarrow c)
    (rest : List Char) (offset line column : Nat) :
    skip cs.length ⟨cs ++ rest, offset, line, column⟩ =
      ⟨rest, offset + cs.length, line, column + cs.length⟩ := by
  induction cs generalizing offset column with
  | nil => rfl
  | cons c more ih =>
    obtain ⟨hc, hmore⟩ := List.forall_mem_cons.1 hcs
    rw [List.length_cons, skip, List.cons_append, next]
    simp only [hc.not_isBreak, hc.utf8Size_eq, Bool.false_eq_true, if_false]
    rw [ih hmore]
    simp only [Cursor.mk.injEq, true_and]
    omega

theorem moveTo_append {cs : List Char} (hcs : ∀ c ∈ cs, IsNarrow c)
    (rest : List Char) (offset line column : Nat) :
    moveTo rest ⟨cs ++ rest, offset, line, column⟩ =
      ⟨rest, offset + cs.length, line, column + cs.length⟩ := by
  rw [moveTo, List.length_append, Nat.add_sub_cancel]
  exact skip_append hcs rest offset line column

theorem skip_add (m n : Nat) (c : Cursor) : skip (m + n) c = skip n (skip m c) := by
  induction m generalizing c with
  | zero => rw [Nat.zero_add, skip]
  | succ m ih => rw [Nat.succ_add, skip, skip, ih]

/-- The way to a place goes through every place before it. -/
theorem moveTo_of_skip {c c' : Cursor} {n : Nat} (h : c.skip n = c')
    (hlength : c.rest.length = n + c'.rest.length) {rest : List Char}
    (hle : rest.length ≤ c'.rest.length) : c.moveTo rest = c'.moveTo rest := by
  rw [moveTo, moveTo, hlength, Nat.add_sub_assoc hle, skip_add, h]

end Cursor

namespace Layout

def opened (indents : List Nat) (column : Nat) : List Nat :=
  if indents.head? = some column then indents else column :: indents

def opening (indents : List Nat) (column : Nat) : List Token :=
  if indents.head? = some column then [] else [.blockMappingStart]

section Opening

variable {indents : List Nat} {column : Nat}

theorem opened_of_open (h : indents.head? = some column) : opened indents column = indents :=
  if_pos h

theorem opening_of_open (h : indents.head? = some column) : opening indents column = [] := if_pos h

theorem opened_of_new (h : indents.head? ≠ some column) :
    opened indents column = column :: indents := if_neg h

theorem opening_of_new (h : indents.head? ≠ some column) :
    opening indents column = [.blockMappingStart] := if_neg h

theorem exists_opened (indents : List Nat) (column : Nat) :
    ∃ outer, opened indents column = column :: outer := by
  by_cases h : indents.head? = some column
  · rw [opened_of_open h]
    exact List.head?_eq_some_iff.1 h
  · exact ⟨indents, opened_of_new h⟩

theorem head?_opened (indents : List Nat) (column : Nat) :
    (opened indents column).head? = some column := by
  obtain ⟨outer, h⟩ := exists_opened indents column
  rw [h, List.head?_cons]

end Opening

def atLine (tokens : List Token) (indents : List Nat) (offset line : Nat) (text : List Char) :
    Layout where
  cursor := ⟨unindented text, offset, line, indentOf text⟩
  tokens := tokens.toArray
  indents := indents
  keyAllowed := true
  candidate := none
  outer := []

def atValue (tokens : List Token) (indents : List Nat) (cursor : Cursor) : Layout where
  cursor := cursor
  tokens := tokens.toArray
  indents := indents
  keyAllowed := false
  candidate := none
  outer := []

/-- From the start of a line, wherever it is, the scanner gets to these tokens in the end. -/
def Scans (tokens : List Token) (indents : List Nat) (text : List Char) (out : List Token) : Prop :=
  ∀ offset line, (atLine tokens indents offset line text).tokens? = some out

theorem endBlocks_self (l : Layout) : l.endBlocks l.indents = l := by
  unfold endBlocks
  split
  · rfl
  · simp

def Within (indents : List Nat) (column : Nat) : Prop :=
  ∀ indent ∈ indents.head?, indent ≤ column

theorem endBlocksRightOf_of_within {l : Layout} {column : Nat} (h : Within l.indents column) :
    l.endBlocksRightOf column = l := by
  have hkept : l.indents.dropWhile (fun indent => column < indent) = l.indents := by
    cases hindents : l.indents with
    | nil => rfl
    | cons indent outer =>
      rw [Within, hindents] at h
      have hle : indent ≤ column := h indent rfl
      rw [List.dropWhile_cons_of_neg]
      simpa using hle
  rw [endBlocksRightOf, hkept, endBlocks_self]

theorem settle_of_lineRest {l : Layout} (h : l.lineRest.head?.any isBreak = false) :
    l.settle = l.moveTo l.lineRest := by
  rw [settle]
  simp [h]

theorem settle_eq_self {l : Layout} (h : l.lineRest = l.cursor.rest)
    (hbreak : l.cursor.rest.head?.any isBreak = false) : l.settle = l := by
  rw [settle_of_lineRest (h ▸ hbreak), h, moveTo, Cursor.moveTo, Nat.sub_self]
  rfl

theorem settle_of_cons {l : Layout} {c : Char} {rest : List Char} (h : l.cursor.rest = c :: rest)
    (hc : isLetter c = true ∨ c = ':') : l.settle = l := by
  have hne : ∀ d, isLetter d = false → d ≠ ':' → c ≠ d := by
    rintro d hd hcolon
    rcases hc with hc | rfl
    · exact ne_of_isLetter hc hd
    · exact hcolon.symm
  have hspace := hne ' ' (by decide) (by decide)
  have htab := hne '\t' (by decide) (by decide)
  have hsharp := hne '#' (by decide) (by decide)
  have hmark : isOrderMark c = false := by
    rcases hc with hc | rfl
    · exact not_isOrderMark hc
    · decide
  have hbreak : isBreak c = false := by
    rcases hc with hc | rfl
    · exact not_isBreak hc
    · decide
  apply settle_eq_self
  · simp [lineRest, h, hmark, hspace, htab, hsharp]
  · rw [h]
    exact hbreak

theorem settle_atLine {text : List Char} (h : IsLined text) (tokens : List Token)
    (indents : List Nat) (offset line : Nat) :
    (atLine tokens indents offset line text).settle = atLine tokens indents offset line text := by
  rcases h with h | ⟨c, rest, h, hc⟩
  · apply settle_eq_self <;> simp [lineRest, atLine, h]
  · exact settle_of_cons h (.inl hc)

theorem settle_atValue_space {word : List Char} (hword : IsWord word) (tokens : List Token)
    (indents : List Nat) (rest : List Char) (offset line column : Nat) :
    (atValue tokens indents ⟨' ' :: (word ++ rest), offset, line, column⟩).settle =
      atValue tokens indents ⟨word ++ rest, offset + 1, line, column + 1⟩ := by
  obtain ⟨c, more, rfl, hc⟩ := hword.exists_cons
  have hspace : c ≠ ' ' := ne_of_isLetter hc (by decide)
  have htab : c ≠ '\t' := ne_of_isLetter hc (by decide)
  have hsharp : c ≠ '#' := ne_of_isLetter hc (by decide)
  have hline :
      (atValue tokens indents ⟨' ' :: (c :: more ++ rest), offset, line, column⟩).lineRest =
        c :: more ++ rest := by
    have hmark : isOrderMark ' ' = false := by decide
    simp [lineRest, atValue, hmark, hspace, htab, hsharp]
  rw [settle_of_lineRest, hline]
  · have hblank : ∀ d ∈ [' '], IsNarrow d := List.forall_mem_singleton.2 isNarrow_blank
    have hmove :
        Cursor.moveTo (c :: more ++ rest) ⟨' ' :: (c :: more ++ rest), offset, line, column⟩ =
          ⟨c :: more ++ rest, offset + 1, line, column + 1⟩ :=
      Cursor.moveTo_append hblank _ offset line column
    rw [moveTo, atValue, hmove]
    rfl
  · rw [hline]
    exact not_isBreak hc

theorem lineRest_of_isLined {text : List Char} (h : IsLined text) {l : Layout}
    (hrest : l.cursor.rest = text) (hallowed : l.keyAllowed = true) (hflow : l.outer = []) :
    l.lineRest = unindented text := by
  have hsharp : (unindented text).head? ≠ some '#' := by
    rcases h with h | ⟨c, rest, h, hc⟩
    · simp [h]
    · simpa [h] using ne_of_isLetter hc (by decide)
  have hdrop : text.dropWhile (fun c => c = ' ' || (c = '\t' && (l.inFlow || !l.keyAllowed))) =
      unindented text := by
    simp [inFlow, hallowed, hflow, unindented]
  cases text with
  | nil => simp [lineRest, hrest, unindented]
  | cons c rest =>
    have hmark : isOrderMark c = false := by
      by_cases hspace : c = ' '
      · rw [hspace]
        decide
      · exact not_isOrderMark (h.isLetter_of_ne hspace)
    simp only [lineRest, hrest, hmark, Bool.and_false, Bool.false_eq_true, if_false, hdrop, hsharp]

/-- The indentation is part of the gap behind a word. -/
theorem breaksFrom?_of_isLined {text : List Char} (h : IsLined text) (least column : Nat) :
    breaksFrom? least column text = some ([], column + indentOf text, unindented text) := by
  induction text generalizing column with
  | nil => rfl
  | cons c rest ih =>
    by_cases hspace : c = ' '
    · subst hspace
      have hrest : unindented (' ' :: rest) = unindented rest := rfl
      have hindent : indentOf (' ' :: rest) = indentOf rest + 1 := rfl
      rw [IsLined, hrest] at h
      rw [hrest, hindent, breaksFrom?]
      · rw [if_pos rfl, ih h, Nat.add_assoc, Nat.add_comm 1]
      · simp
    · have hindent : indentOf (c :: rest) = 0 := by simp [indentOf, hspace]
      have hc := h.isLetter_of_ne hspace
      have htab : c ≠ '\t' := ne_of_isLetter hc (by decide)
      have hreturn : c ≠ '\r' := ne_of_isLetter hc (by decide)
      rw [unindented_cons_of_ne hspace, hindent, breaksFrom?]
      · simp [hspace, htab, not_isBreak hc]
      · exact fun _ h => absurd h hreturn

theorem gap?_feed {text : List Char} (h : IsLined text) (least : Nat) :
    gap? least ('\n' :: text) = some (⟨[], ['\n'], indentOf text⟩, unindented text) := by
  have hblank : isBlank '\n' = false := by decide
  have hbreak : isBreak '\n' = true := by decide
  have hbreaks : breaksFrom? least 0 ('\n' :: text) =
      some (['\n'], indentOf text, unindented text) := by
    rw [breaksFrom?]
    · simp [hbreak, breakText, isSeparator, breaksFrom?_of_isLined h]
    · simp
  simp [gap?, hblank, hbreak, hbreaks]

/-- A word ends with its line if the next one is not as deep as it would have to be. -/
theorem plain?_word {word text : List Char} (hword : IsWord word) (h : IsLined text) {least : Nat}
    (hleast : indentOf text < least) :
    plain? false least (word ++ '\n' :: text) = some ⟨word, true, unindented text⟩ := by
  have hgap : atGap ('\n' :: text) = true := rfl
  have hend : plainWord? false ('\n' :: text) = some ([], '\n' :: text) := by
    simp [plainWord?, hgap]
  rw [plain?, plainWord?_append hword.letters hend]
  simp [hgap, gap?_feed h, Gap.broken, hleast]

theorem moveTo_unindented (text : List Char) (offset line : Nat) :
    Cursor.moveTo (unindented text) ⟨text, offset, line, 0⟩ =
      ⟨unindented text, offset + indentOf text, line, indentOf text⟩ := by
  have hspaces : ∀ c ∈ text.takeWhile (· = ' '), IsNarrow c := by
    intro c hc
    have hspace := List.mem_takeWhile_imp hc
    obtain rfl : c = ' ' := by simpa using hspace
    exact isNarrow_blank
  have hmove := Cursor.moveTo_append hspaces (unindented text) offset line 0
  rw [unindented, List.takeWhile_append_dropWhile, Nat.zero_add] at hmove
  exact hmove

theorem Cursor.moveTo_word {word : List Char} (hword : IsWord word) (text : List Char)
    (offset line column : Nat) :
    Cursor.moveTo (unindented text) ⟨word ++ '\n' :: text, offset, line, column⟩ =
      ⟨unindented text, offset + word.length + 1 + indentOf text, line + 1, indentOf text⟩ := by
  have hle := length_unindented_le text
  have hfeed : Cursor.skip 1 ⟨'\n' :: text, offset + word.length, line, column + word.length⟩ =
      ⟨text, offset + word.length + 1, line + 1, 0⟩ := rfl
  rw [Cursor.moveTo_of_skip (Cursor.skip_append hword.isNarrow ..) (List.length_append ..),
    Cursor.moveTo_of_skip hfeed (Nat.add_comm ..) hle, moveTo_unindented]
  exact Nat.le_succ_of_le hle

theorem settle_indented {text : List Char} (h : IsLined text) (tokens : List Token)
    (indents : List Nat) (offset line : Nat) :
    settle { atLine tokens indents 0 0 text with cursor := ⟨text, offset, line, 0⟩ } =
      atLine tokens indents (offset + indentOf text) line text := by
  have hrest : lineRest { atLine tokens indents 0 0 text with cursor := ⟨text, offset, line, 0⟩ } =
      unindented text := lineRest_of_isLined h rfl rfl rfl
  rw [settle_of_lineRest, hrest, moveTo, moveTo_unindented]
  · rfl
  · rw [hrest]
    rcases h with h | ⟨c, rest, h, hc⟩
    · rw [h]
      rfl
    · rw [h]
      exact not_isBreak hc

theorem settle_of_feed {l next : Layout} {text : List Char} (h : l.lineRest = '\n' :: text)
    (hnext : (l.moveTo text).allowKey (l.keyAllowed || !l.inFlow) = next)
    (hshorter : next.cursor.rest.length < l.cursor.rest.length) : l.settle = next.settle := by
  have hdrop : dropBreak ('\n' :: text) = text := rfl
  have hbreak : (some '\n').any isBreak = true := by decide
  rw [settle]
  simp only [h, List.head?_cons, hbreak, if_true, hdrop, hnext, hshorter, dite_true]

theorem settle_atValue_feed {text : List Char} (h : IsLined text) (tokens : List Token)
    (indents : List Nat) (offset line column : Nat) :
    (atValue tokens indents ⟨'\n' :: text, offset, line, column⟩).settle =
      atLine tokens indents (offset + 1 + indentOf text) (line + 1) text := by
  have hline : (atValue tokens indents ⟨'\n' :: text, offset, line, column⟩).lineRest =
      '\n' :: text := by
    have hmark : isOrderMark '\n' = false := by decide
    simp [lineRest, atValue, hmark]
  rw [← settle_indented h]
  apply settle_of_feed hline
  · have hsize : '\n'.utf8Size = 1 := by decide
    have hbreak : isBreak '\n' = true := by decide
    simp [inFlow, moveTo, atValue, allowKey, atLine, Cursor.moveTo, Cursor.skip, Cursor.next, hsize,
      hbreak]
  · exact Nat.lt_succ_self _

/-- What is left to do once the block collections further right have been ended. The next place has
to have less than this many characters behind it. -/
def readOn? (bound : Nat) (l : Layout) : Option (List Token) :=
  if l.cursor.rest.isEmpty then l.endDocument?.map fun l => l.tokens.toList
  else l.readToken?.bind fun next =>
    if next.cursor.rest.length < bound then next.tokens? else none

theorem tokens?_eq (l : Layout) :
    l.tokens? = l.settle.dropLateCandidates?.bind fun settled =>
      (settled.endBlocksRightOf settled.cursor.column).readOn? l.cursor.rest.length := by
  rw [tokens?]
  cases l.settle.dropLateCandidates? with
  | none => rfl
  | some settled =>
    simp only [Option.bind_some, readOn?]
    cases (settled.endBlocksRightOf settled.cursor.column).readToken? <;> rfl

theorem readOn?_mono {bound bound' : Nat} (hle : bound ≤ bound') {l : Layout} {out : List Token}
    (h : l.readOn? bound = some out) : l.readOn? bound' = some out := by
  unfold readOn? at h ⊢
  split
  · next hend => rwa [if_pos hend] at h
  · next hend =>
    rw [if_neg hend] at h
    obtain ⟨next, hnext, h⟩ := Option.bind_eq_some_iff.1 h
    split at h
    · next hlt => rw [hnext, Option.bind_some, if_pos (Nat.lt_of_lt_of_le hlt hle), h]
    · cases h

theorem tokens?_atLine {text : List Char} (h : IsLined text) (tokens : List Token)
    (indents : List Nat) (offset line : Nat) :
    (atLine tokens indents offset line text).tokens? =
      ((atLine tokens indents offset line text).endBlocksRightOf (indentOf text)).readOn?
        (unindented text).length := by
  rw [tokens?_eq, settle_atLine h]
  rfl

theorem tokens?_of_read {l next : Layout} (hlate : l.settle.dropLateCandidates? = some l.settle)
    (hwithin : Within l.settle.indents l.settle.cursor.column)
    (hread : l.settle.readToken? = some next)
    (hshorter : next.cursor.rest.length < l.cursor.rest.length) : l.tokens? = next.tokens? := by
  have hrest : ¬ l.settle.cursor.rest.isEmpty = true := by
    intro hempty
    simp [readToken?, List.isEmpty_iff.1 hempty] at hread
  rw [tokens?_eq, hlate, Option.bind_some, endBlocksRightOf_of_within hwithin, readOn?,
    if_neg hrest, hread, Option.bind_some, if_pos hshorter]

/-- What is passed over before a token makes no difference. -/
theorem tokens?_of_settle {l settled : Layout} (h : l.settle = settled)
    (hsettled : settled.settle = settled)
    (hle : settled.cursor.rest.length ≤ l.cursor.rest.length) {out : List Token}
    (hout : settled.tokens? = some out) : l.tokens? = some out := by
  rw [tokens?_eq, hsettled] at hout
  obtain ⟨current, hcurrent, hout⟩ := Option.bind_eq_some_iff.1 hout
  rw [tokens?_eq, h, hcurrent, Option.bind_some]
  exact readOn?_mono hle hout

theorem readToken?_of_isLetter {l : Layout} {c : Char} {rest : List Char}
    (h : l.cursor.rest = c :: rest) (hc : isLetter c = true) : l.readToken? = l.readPlain? := by
  have hpercent : c ≠ '%' := ne_of_isLetter hc (by decide)
  unfold readToken?
  rw [h]
  simp only [hpercent, decide_false, Bool.and_false, Bool.false_eq_true, if_false, not_atMarker hc,
    not_atGap hc]
  split <;> first | rfl | exact absurd hc (by decide)

theorem insertIdxIfInBounds_toArray (before after : List Token) (t : Token) :
    (before ++ after).toArray.insertIdxIfInBounds before.length t =
      (before ++ t :: after).toArray := by
  have hinsert : (before ++ after).insertIdx before.length t = before ++ t :: after := by
    induction before with
    | nil => rfl
    | cons b rest ih => rw [List.length_cons, List.cons_append, List.insertIdx_succ_cons, ih]; rfl
  simp [Array.insertIdxIfInBounds, hinsert]

def afterKey (tokens : List Token) (indents : List Nat) (key rest : List Char)
    (offset line column : Nat) : Layout where
  cursor := ⟨':' :: rest, offset + key.length, line, column + key.length⟩
  tokens := (tokens ++ [Token.scalar .plain key]).toArray
  indents := indents
  keyAllowed := false
  candidate := some ⟨tokens.length, indents.head? = some column, offset, line, column⟩
  outer := []

theorem plain?_key {key rest : List Char} (hkey : IsWord key) (hrest : atGap rest = true)
    (least : Nat) : plain? false least (key ++ ':' :: rest) = some ⟨key, false, ':' :: rest⟩ := by
  have hcolon : plainWord? false (':' :: rest) = some ([], ':' :: rest) := by
    simp [plainWord?, hrest]
  have hgap : atGap (':' :: rest) = false := rfl
  rw [plain?, plainWord?_append hkey.letters hcolon]
  simp [hgap]

theorem tokens?_key {text key rest : List Char} (hkey : IsWord key) (hrest : atGap rest = true)
    (htext : unindented text = key ++ ':' :: rest) {indents : List Nat}
    (hwithin : Within indents (indentOf text)) (tokens : List Token) (offset line : Nat) :
    (atLine tokens indents offset line text).tokens? =
      (afterKey tokens indents key rest offset line (indentOf text)).tokens? := by
  obtain ⟨c, more, hcons, hc⟩ := hkey.exists_cons
  have hlined : IsLined text := .inr ⟨c, more ++ ':' :: rest, by rw [htext, hcons]; rfl, hc⟩
  have hsettle := settle_atLine hlined tokens indents offset line
  apply tokens?_of_read
  · rw [hsettle]
    rfl
  · rw [hsettle]
    exact hwithin
  · have hstart : (atLine tokens indents offset line text).cursor.rest =
        c :: (more ++ ':' :: rest) := by
      rw [← List.cons_append, ← hcons]
      exact htext
    rw [hsettle, readToken?_of_isLetter hstart hc]
    have hmove : Cursor.moveTo (':' :: rest) ⟨unindented text, offset, line, indentOf text⟩ =
        ⟨':' :: rest, offset + key.length, line, indentOf text + key.length⟩ := by
      rw [htext]
      exact Cursor.moveTo_append hkey.isNarrow ..
    have hplain := plain?_key hkey hrest
    rw [← htext] at hplain
    simp [readPlain?, saveCandidate?, dropCandidate?, atLine, inFlow, hplain, allowKey, moveTo,
      emit, hmove, afterKey]
  · have hlength := congrArg List.length htext
    rw [List.length_append] at hlength
    have hpos := List.length_pos_iff.2 hkey.ne_nil
    simp only [afterKey, atLine]
    omega

theorem least_le_iff {l : Layout} {column : Nat} (h : Within l.indents column) :
    l.least ≤ column ↔ l.indents.head? ≠ some column := by
  unfold least
  split
  · next hindents => simp [hindents]
  · next indent outer hindents =>
    rw [Within, hindents] at h
    have hle : indent ≤ column := h indent rfl
    rw [hindents, List.head?_cons, ne_eq, Option.some.injEq]
    omega

theorem startBlock_of_within {l : Layout} {before after : List Token} {column : Nat}
    (htokens : l.tokens = (before ++ after).toArray) (hflow : l.outer = [])
    (h : Within l.indents column) :
    l.startBlock column before.length .blockMappingStart =
      { l with
        indents := opened l.indents column
        tokens := (before ++ opening l.indents column ++ after).toArray } := by
  unfold startBlock
  by_cases hopen : l.indents.head? = some column
  · have hleast : ¬ l.least ≤ column := fun hle => (least_le_iff h).1 hle hopen
    rw [opened_of_open hopen, opening_of_open hopen, List.append_nil, ← htokens]
    simp [hleast]
  · have hleast : l.least ≤ column := (least_le_iff h).2 hopen
    rw [opened_of_new hopen, opening_of_new hopen, htokens, insertIdxIfInBounds_toArray]
    simp [inFlow, hflow, hleast]

theorem readToken?_colon {l : Layout} {rest : List Char} (h : l.cursor.rest = ':' :: rest)
    (hrest : atGap rest = true) : l.readToken? = l.readValue? := by
  have hmarker : atMarker (':' :: rest) = false := by
    unfold atMarker
    split
    · next heq =>
      cases heq
      rfl
    · rfl
  unfold readToken?
  rw [h]
  simp [hmarker, hrest]

/-- The colon puts the mark of a key before the key, and the start of a mapping before that. -/
theorem readValue?_afterKey {indents : List Nat} {column : Nat} (h : Within indents column)
    (tokens : List Token) (key rest : List Char) (offset line : Nat) :
    (afterKey tokens indents key rest offset line column).readValue? =
      some (atValue (tokens ++ opening indents column ++ [.key, .scalar .plain key, .value])
        (opened indents column)
        ⟨rest, offset + key.length + 1, line, column + key.length + 1⟩) := by
  have hsize : ':'.utf8Size = 1 := by decide
  have hbreak : isBreak ':' = false := by decide
  simp only [readValue?, afterKey, insertIdxIfInBounds_toArray]
  rw [startBlock_of_within rfl rfl h]
  simp [allowKey, skip, emit, atValue, Cursor.skip, Cursor.next, hsize, hbreak]

theorem tokens?_colon {key rest : List Char} (hkey : IsKey key)
    (hrest : atGap rest = true) {indents : List Nat} {column : Nat}
    (hwithin : Within indents column) (tokens : List Token) (offset line : Nat) :
    (afterKey tokens indents key rest offset line column).tokens? =
      (atValue (tokens ++ opening indents column ++ [.key, .scalar .plain key, .value])
        (opened indents column)
        ⟨rest, offset + key.length + 1, line, column + key.length + 1⟩).tokens? := by
  have hsettle : (afterKey tokens indents key rest offset line column).settle =
      afterKey tokens indents key rest offset line column := settle_of_cons rfl (.inr rfl)
  apply tokens?_of_read
  · rw [hsettle]
    have hlate : ¬ offset + 1024 < offset + key.length := by
      have hshort := hkey.short
      omega
    simp [dropLateCandidates?, afterKey, dropLate?, Candidate.isLate, hlate]
  · rw [hsettle]
    exact fun indent hindent => Nat.le_add_right_of_le (hwithin indent hindent)
  · rw [hsettle, readToken?_colon rfl hrest, readValue?_afterKey hwithin]
  · simp [afterKey, atValue]

theorem tokens?_entry {text key rest : List Char} (hkey : IsKey key) (hrest : atGap rest = true)
    (htext : unindented text = key ++ ':' :: rest) {indent : Nat} (hindent : indentOf text = indent)
    {indents : List Nat} (hwithin : Within indents indent) (tokens : List Token)
    (offset line : Nat) :
    (atLine tokens indents offset line text).tokens? =
      (atValue (tokens ++ opening indents indent ++ [.key, .scalar .plain key, .value])
        (opened indents indent)
        ⟨rest, offset + key.length + 1, line, indent + key.length + 1⟩).tokens? := by
  subst hindent
  rw [tokens?_key hkey.toIsWord hrest htext hwithin, tokens?_colon hkey hrest hwithin]

theorem tokens?_word {word text : List Char} (hword : IsWord word) (h : IsLined text)
    {indent column : Nat} (hindent : indent ≤ column) (htext : indentOf text ≤ indent)
    (tokens : List Token) (outer : List Nat) (offset line : Nat) :
    (atValue tokens (indent :: outer)
        ⟨' ' :: (word ++ '\n' :: text), offset, line, column⟩).tokens? =
      (atLine (tokens ++ [.scalar .plain word]) (indent :: outer)
        (offset + 1 + word.length + 1 + indentOf text) (line + 1) text).tokens? := by
  have hsettle :=
    settle_atValue_space hword tokens (indent :: outer) ('\n' :: text) offset line column
  apply tokens?_of_read
  · rw [hsettle]
    rfl
  · rw [hsettle]
    rintro _ ⟨⟩
    exact Nat.le_succ_of_le hindent
  · obtain ⟨c, more, hcons, hc⟩ := hword.exists_cons
    have hstart : word ++ '\n' :: text = c :: (more ++ '\n' :: text) := by rw [hcons]; rfl
    rw [hsettle, readToken?_of_isLetter hstart hc]
    have hplain := plain?_word hword h (Nat.lt_succ_of_le htext)
    have hmove := Cursor.moveTo_word hword text (offset + 1) line (column + 1)
    simp [readPlain?, saveCandidate?, atValue, inFlow, least, hplain, allowKey, moveTo, emit, hmove,
      atLine]
  · have hle := length_unindented_le text
    simp only [atLine, atValue, List.length_cons, List.length_append]
    omega

variable {tokens out : List Token} {indents : List Nat} {indent : Nat} {key word text : List Char}

namespace Scans

theorem field (hkey : IsKey key) (hword : IsWord word) (htext : IsLined text)
    (hwithin : Within indents indent) (hle : indentOf text ≤ indent)
    (h : Scans (tokens ++ opening indents indent ++
      [.key, .scalar .plain key, .value, .scalar .plain word]) (opened indents indent) text out) :
    Scans tokens indents (lineText indent key word ++ text) out := by
  intro offset line
  have hentry : unindented (lineText indent key word ++ text) =
      key ++ ':' :: (' ' :: (word ++ '\n' :: text)) := by
    rw [unindented_lineText hkey.toIsWord, entryText, if_neg hword.ne_nil]
    simp
  obtain ⟨outer, houter⟩ := exists_opened indents indent
  rw [tokens?_entry hkey rfl hentry (indentOf_lineText hkey.toIsWord ..) hwithin, houter,
    tokens?_word hword htext (by omega) hle, ← houter, List.append_assoc]
  exact h _ _

theorem header (hkey : IsKey key) (htext : IsLined text) (hwithin : Within indents indent)
    (h : Scans (tokens ++ opening indents indent ++ [.key, .scalar .plain key, .value])
      (opened indents indent) text out) :
    Scans tokens indents (lineText indent key [] ++ text) out := by
  intro offset line
  have hentry : unindented (lineText indent key [] ++ text) = key ++ ':' :: ('\n' :: text) := by
    rw [unindented_lineText hkey.toIsWord, entryText, if_pos rfl]
    simp
  rw [tokens?_entry hkey rfl hentry (indentOf_lineText hkey.toIsWord ..) hwithin]
  apply tokens?_of_settle (settle_atValue_feed htext ..) (settle_atLine htext ..)
  · exact Nat.le_succ_of_le (length_unindented_le text)
  · rw [List.append_assoc] at h ⊢
    exact h _ _

/-- A line further left than the innermost mapping ends that mapping. -/
theorem close {outer : List Nat} (htext : IsLined text) (hlt : indentOf text < indent)
    (h : Scans (tokens ++ [.blockEnd]) outer text out) :
    Scans tokens (indent :: outer) text out := by
  intro offset line
  have hends : (atLine tokens (indent :: outer) offset line text).endBlocksRightOf (indentOf text) =
      (atLine (tokens ++ [.blockEnd]) outer offset line text).endBlocksRightOf (indentOf text) := by
    have hdrop : (outer.dropWhile fun indent => indentOf text < indent).length ≤ outer.length :=
      (List.dropWhile_sublist _).length_le
    have hreplicate : ∀ n, tokens.toArray ++ Array.replicate (n + 1) Token.blockEnd =
        (tokens ++ [Token.blockEnd]).toArray ++ Array.replicate n Token.blockEnd := by
      intro n
      apply Array.ext'
      simp [List.replicate_succ]
    simp [endBlocksRightOf, endBlocks, atLine, inFlow, hlt, Nat.succ_sub hdrop, hreplicate]
  rw [tokens?_atLine htext, hends, ← tokens?_atLine htext]
  exact h offset line

theorem finish (hwithin : Within indents 0) :
    Scans tokens indents [] (tokens ++ List.replicate indents.length .blockEnd) := by
  intro offset line
  have hlined : IsLined [] := .inl rfl
  rw [tokens?_atLine hlined, endBlocksRightOf_of_within hwithin]
  simp [readOn?, endDocument?, endBlocks, dropCandidate?, atLine, inFlow, unindented, allowKey]

end Scans

end Layout

end ProgramFlow.Yaml
