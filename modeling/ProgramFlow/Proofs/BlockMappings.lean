import ProgramFlow.Proofs.LineScanning
import ProgramFlow.Yaml.Document

/-! Block mappings of words, nested to any depth, read back from their printed form. The scanner
gives the tokens of a mapping, the reader of tokens gives its entries; both follow the mapping entry
by entry, and a nested mapping ends where the next entry of the outer one begins. -/
namespace ProgramFlow.Yaml

inductive Block where
  | nil
  | field (key word : List Char) (rest : Block)
  | nested (key : List Char) (inner rest : Block)

namespace Block

/-- Keys and words can stand without quotes, and a nested mapping has an entry. -/
def Plain : Block → Prop
  | .nil => True
  | .field key word rest => IsKey key ∧ IsWord word ∧ rest.Plain
  | .nested key inner rest => IsKey key ∧ inner ≠ .nil ∧ inner.Plain ∧ rest.Plain

def text (depth : Nat) : Block → List Char
  | .nil => []
  | .field key word rest => lineText (2 * depth) key word ++ rest.text depth
  | .nested key inner rest =>
    lineText (2 * depth) key [] ++ (inner.text (depth + 1) ++ rest.text depth)

def tokens : Block → List Token
  | .nil => []
  | .field key word rest => [.key, .scalar .plain key, .value, .scalar .plain word] ++ rest.tokens
  | .nested key inner rest =>
    [.key, .scalar .plain key, .value, .blockMappingStart] ++ inner.tokens ++
      .blockEnd :: rest.tokens

def entries : Block → List (Yaml × Yaml)
  | .nil => []
  | .field key word rest => (.scalar .plain none key, .scalar .plain none word) :: rest.entries
  | .nested key inner rest => (.scalar .plain none key, .map inner.entries) :: rest.entries

section Scanning

open Layout

variable {b : Block} {depth : Nat} {after : List Char}

theorem isLined_lineText {key : List Char} (hkey : IsWord key) (indent : Nat)
    (word after : List Char) : IsLined (lineText indent key word ++ after) := by
  obtain ⟨c, more, rfl, hc⟩ := hkey.exists_cons
  right
  rw [unindented_lineText hkey]
  exact ⟨c, _, rfl, hc⟩

theorem isLined_text (hb : b.Plain) (h : IsLined after) : IsLined (b.text depth ++ after) := by
  cases b with
  | nil => exact h
  | field key word rest =>
    rw [text, List.append_assoc]
    exact isLined_lineText hb.1.toIsWord ..
  | nested key inner rest =>
    rw [text, List.append_assoc]
    exact isLined_lineText hb.1.toIsWord ..

theorem indentOf_text (hb : b.Plain) (h : indentOf after ≤ 2 * depth) :
    indentOf (b.text depth ++ after) ≤ 2 * depth := by
  cases b with
  | nil => exact h
  | field key word rest =>
    rw [text, List.append_assoc, indentOf_lineText hb.1.toIsWord]
  | nested key inner rest =>
    rw [text, List.append_assoc, indentOf_lineText hb.1.toIsWord]

theorem within_opened {column column' : Nat} (h : column ≤ column') (indents : List Nat) :
    Within (opened indents column) column' := by
  intro indent hindent
  rw [head?_opened] at hindent
  cases hindent
  exact h

/-- The scanner takes up the tokens of a mapping, and stands where the mapping ends. If it is not
open yet, it is opened with its first entry. -/
theorem scans_text (hb : b.Plain) {indents : List Nat} {before out : List Token}
    (hopen : b ≠ .nil ∨ indents.head? = some (2 * depth)) (hwithin : Within indents (2 * depth))
    (hafter : IsLined after) (hle : indentOf after ≤ 2 * depth)
    (h : Scans (before ++ opening indents (2 * depth) ++ b.tokens) (opened indents (2 * depth))
      after out) : Scans before indents (b.text depth ++ after) out := by
  induction b generalizing depth indents before after with
  | nil =>
    have hhead : indents.head? = some (2 * depth) := by simpa using hopen
    rw [opening_of_open hhead, opened_of_open hhead, tokens, List.append_nil, List.append_nil] at h
    exact h
  | field key word rest ih =>
    obtain ⟨hkey, hword, hrest⟩ := hb
    rw [text, List.append_assoc]
    apply Scans.field hkey hword (isLined_text hrest hafter) hwithin (indentOf_text hrest hle)
    have hhead := head?_opened indents (2 * depth)
    apply ih hrest (.inr hhead) (within_opened (Nat.le_refl _) indents) hafter hle
    rw [opening_of_open hhead, opened_of_open hhead, List.append_nil, List.append_assoc]
    exact h
  | nested key inner rest ihi ihr =>
    obtain ⟨hkey, hne, hinner, hrest⟩ := hb
    have hlined : IsLined (rest.text depth ++ after) := isLined_text hrest hafter
    have hindent : indentOf (rest.text depth ++ after) ≤ 2 * depth := indentOf_text hrest hle
    have hhead := head?_opened indents (2 * depth)
    have hdeeper : (opened indents (2 * depth)).head? ≠ some (2 * (depth + 1)) := by
      rw [hhead, ne_eq, Option.some.injEq]
      omega
    rw [text, List.append_assoc, List.append_assoc]
    apply Scans.header hkey (isLined_text hinner hlined) hwithin
    apply ihi hinner (.inl hne) (within_opened (by omega) indents) hlined (by omega)
    rw [opening_of_new hdeeper, opened_of_new hdeeper]
    -- the line behind the nested mapping is further left, and ends it
    apply Scans.close hlined (by omega)
    apply ihr hrest (.inr hhead) (within_opened (Nat.le_refl _) indents) hafter hle
    rw [opening_of_open hhead, opened_of_open hhead]
    simpa [tokens] using h

theorem isPrintable_lineText {key word : List Char} (hkey : ∀ c ∈ key, isLetter c = true)
    (hword : ∀ c ∈ word, isLetter c = true) (indent : Nat) :
    ∀ c ∈ lineText indent key word, isPrintable c = true := by
  have hblanks : ∀ c ∈ List.replicate indent ' ', isPrintable c = true := by
    intro c hc
    rw [List.eq_of_mem_replicate hc]
    decide
  have hletters : ∀ cs : List Char, (∀ c ∈ cs, isLetter c = true) →
      ∀ c ∈ cs, isPrintable c = true := fun cs hcs c hc => isPrintable_of_isLetter (hcs c hc)
  have hvalue : ∀ c ∈ (if word = [] then [] else ' ' :: word), isPrintable c = true := by
    split
    · simp
    · exact List.forall_mem_cons.2 ⟨by decide, hletters word hword⟩
  simp only [lineText, entryText, List.forall_mem_append, List.forall_mem_cons]
  exact ⟨hblanks, ⟨hletters key hkey, by decide, hvalue⟩, by decide, by simp⟩

theorem isPrintable_text (hb : b.Plain) (depth : Nat) :
    ∀ c ∈ b.text depth, isPrintable c = true := by
  induction b generalizing depth with
  | nil => simp [text]
  | field key word rest ih =>
    obtain ⟨hkey, hword, hrest⟩ := hb
    rw [text, List.forall_mem_append]
    exact ⟨isPrintable_lineText hkey.letters hword.letters _, ih hrest depth⟩
  | nested key inner rest ihi ihr =>
    obtain ⟨hkey, -, hinner, hrest⟩ := hb
    rw [text, List.forall_mem_append, List.forall_mem_append]
    exact ⟨isPrintable_lineText hkey.letters (by simp) _, ihi hinner _, ihr hrest depth⟩

theorem start_text (hb : b.Plain) : Layout.start (b.text 0) = atLine [] [] 0 0 (b.text 0) := by
  have hindent : indentOf (b.text 0) = 0 := by
    have hle : indentOf (b.text 0 ++ []) ≤ 2 * 0 := indentOf_text hb (Nat.zero_le _)
    rw [List.append_nil] at hle
    omega
  have hself : unindented (b.text 0) = b.text 0 := by
    have hsplit : (b.text 0).takeWhile (· = ' ') ++ unindented (b.text 0) = b.text 0 :=
      List.takeWhile_append_dropWhile
    rwa [List.eq_nil_of_length_eq_zero hindent, List.nil_append] at hsplit
  rw [atLine, hself, hindent]
  rfl

theorem ofText?_text (hb : b.Plain) (hne : b ≠ .nil) :
    Token.ofText? (b.text 0) = some (.blockMappingStart :: b.tokens ++ [.blockEnd]) := by
  have hlined : IsLined [] := .inl rfl
  have hscans : Scans [] [] (b.text 0 ++ []) (.blockMappingStart :: b.tokens ++ [.blockEnd]) := by
    apply scans_text hb (.inl hne) (by simp [Within]) hlined (Nat.zero_le _)
    exact Scans.finish (by simp [Within, opened])
  rw [List.append_nil] at hscans
  rw [Token.ofText?, if_pos (List.all_eq_true.2 (isPrintable_text hb 0)), start_text hb]
  exact hscans 0 0

end Scanning

section Reading

variable (handles : Handles) (fuel : Nat) (key word : List Char) (rest : List Token)
  (anchors : Anchors)

theorem node_mapping (inMapping : Bool) :
    node handles true inMapping (fuel + 2) ⟨.blockMappingStart :: rest, anchors⟩ =
      (blockEntries handles fuel ⟨rest, anchors⟩).bind fun (entries, left) =>
        some (.map entries, left) := rfl

theorem blockEntries_end :
    blockEntries handles (fuel + 1) ⟨.blockEnd :: rest, anchors⟩ = some ([], ⟨rest, anchors⟩) := rfl

theorem blockEntries_field :
    blockEntries handles (fuel + 3)
        ⟨.key :: .scalar .plain key :: .value :: .scalar .plain word :: rest, anchors⟩ =
      (blockEntries handles (fuel + 2) ⟨rest, anchors⟩).bind fun (entries, left) =>
        some ((.scalar .plain none key, .scalar .plain none word) :: entries, left) := rfl

theorem blockEntries_nested :
    blockEntries handles (fuel + 3)
        ⟨.key :: .scalar .plain key :: .value :: .blockMappingStart :: rest, anchors⟩ =
      (node handles true true (fuel + 2) ⟨.blockMappingStart :: rest, anchors⟩).bind
        fun (value, left) => (blockEntries handles (fuel + 2) left).bind fun (entries, left) =>
          some ((.scalar .plain none key, value) :: entries, left) := rfl

/-- The entries of a mapping are read from its tokens, with fuel for each of them. -/
theorem blockEntries_tokens {b : Block} {fuel : Nat} (hfuel : b.tokens.length < fuel)
    (after : List Token) :
    blockEntries handles fuel ⟨b.tokens ++ .blockEnd :: after, anchors⟩ =
      some (b.entries, ⟨after, anchors⟩) := by
  induction b generalizing fuel after with
  | nil =>
    obtain ⟨fuel, rfl⟩ := Nat.exists_eq_add_one_of_ne_zero (Nat.ne_of_gt hfuel)
    exact blockEntries_end ..
  | field key word rest ih =>
    simp only [tokens, List.length_append, List.length_cons, List.length_nil] at hfuel
    obtain ⟨fuel, rfl⟩ := Nat.exists_eq_add_of_le' (by omega : 3 ≤ fuel)
    simp only [tokens, List.cons_append, List.nil_append]
    rw [blockEntries_field, ih (by omega)]
    rfl
  | nested key inner rest ihi ihr =>
    simp only [tokens, List.length_append, List.length_cons, List.length_nil] at hfuel
    obtain ⟨fuel, rfl⟩ := Nat.exists_eq_add_of_le' (by omega : 3 ≤ fuel)
    simp only [tokens, List.cons_append, List.nil_append, List.append_assoc]
    rw [blockEntries_nested, node_mapping, ihi (by omega)]
    simp only [Option.bind_some]
    rw [ihr (by omega)]
    rfl

theorem root?_tokens (b : Block) :
    root? handles (.blockMappingStart :: b.tokens ++ [.blockEnd]) = some (.map b.entries, []) := by
  have hfuel : b.tokens.length <
      2 * (Token.blockMappingStart :: (b.tokens ++ [Token.blockEnd])).length := by
    simp only [List.length_append, List.length_cons, List.length_nil]
    omega
  rw [root?, StateT.run, List.cons_append, node_mapping, blockEntries_tokens _ _ hfuel]
  rfl

end Reading

/-- A printed mapping is read as the mapping. -/
theorem ofText?_eq_map {b : Block} (hb : b.Plain) (hne : b ≠ .nil) :
    Yaml.ofText? (b.text 0) = some (.map b.entries) := by
  have hroot := root?_tokens [] b
  rw [List.cons_append] at hroot
  rw [Yaml.ofText?, ofText?_text hb hne, Option.bind_some, List.cons_append]
  simp [ofTokens?, hroot, isFinished]

end Block

end ProgramFlow.Yaml
