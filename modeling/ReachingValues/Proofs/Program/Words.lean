import ReachingValues.Proofs.Program.Printing

/-!
Listings as rows of words. A value is written with one blank between two words, and an operand that
is not the last one ends in a comma. Numerals, types and mnemonics are made of letters and digits; so
only a name or a label can bring a blank, a comma or the end of a line into a word.
-/

namespace ReachingValues

variable {c : Char}

/-- The characters between words, between operands and between lines. -/
def separators : List Char := [' ', ',', '\n']

/-- What listings contain besides references, numerals, types and mnemonics. -/
def marks : List String := ["=", "global", "external", "label", "<invalid", "v", ">", "@", "%", "%bb"]

/-- What a text is cut into by a character. -/
def pieces (c : Char) (text : String) : List String := (text.split c).toList.map (·.copy)

theorem pieces_intercalate {words : List String} (nonempty : words ≠ [])
    (lacks : ∀ w ∈ words, c ∉ w.toList) :
    pieces c ((String.singleton c).intercalate words) = words :=
  (String.toList_split_intercalate lacks).trans (if_neg nonempty)

theorem not_mem_intercalate {separator : String} {words : List String}
    (apart : c ∉ separator.toList) (lacks : ∀ w ∈ words, c ∉ w.toList) :
    c ∉ (separator.intercalate words).toList := by
  induction words with
  | nil => simp
  | cons word rest ih =>
    obtain ⟨first, later⟩ := List.forall_mem_cons.mp lacks
    cases rest with
    | nil => simpa using first
    | cons next rest =>
      rw [String.intercalate_cons_cons, String.toList_append, String.toList_append, List.mem_append,
        List.mem_append, not_or, not_or]
      exact ⟨⟨first, apart⟩, ih later⟩

section Separators

theorem isDigit_of_mem_numeral {n : Nat} (member : c ∈ (toString n).toList) : c.isDigit := by
  rw [Nat.toString_eq_repr, Nat.toList_repr] at member
  exact Nat.isDigit_of_mem_toDigits (by decide) (by decide) member

theorem isDigit_of_mem_integer {i : Int} (member : c ∈ (toString i).toList) :
    c.isDigit ∨ c = '-' := by
  rw [Int.toString_eq_repr, Int.repr_eq_if] at member
  split at member
  · exact Or.inl (isDigit_of_mem_numeral member)
  · rw [String.toList_append, List.mem_append] at member
    rcases member with sign | digit
    · exact Or.inr (by simpa using sign)
    · exact Or.inl (isDigit_of_mem_numeral digit)

theorem Opcode.isAlpha_of_mem_mnemonic {o : Opcode} (member : c ∈ o.mnemonic.toList) :
    c.isAlpha := by
  have letters : o.mnemonic.toList.all Char.isAlpha := by cases o <;> decide
  exact List.all_eq_true.mp letters c member

theorem Ty.text_float (bits : Nat) : (Ty.float bits).text =
    if bits = 32 then "float" else if bits = 64 then "double" else "f" ++ toString bits := by
  unfold text
  split <;> simp_all

theorem Ty.isAlphanum_of_mem_text {k : Ty} (member : c ∈ k.text.toList) : c.isAlphanum := by
  have letters : ∀ word ∈ ["void", "ptr", "label", "float", "double"],
      word.toList.all Char.isAlphanum := by decide
  have plain : ∀ word ∈ ["void", "ptr", "label", "float", "double"],
      c ∈ word.toList → c.isAlphanum :=
    fun word listed => List.all_eq_true.mp (letters word listed) c
  have numbered : ∀ (initial : Char) (n : Nat), initial.isAlphanum →
      c ∈ (String.singleton initial ++ toString n).toList → c.isAlphanum := by
    intro initial n letter member
    rw [String.toList_append, List.mem_append, String.toList_singleton] at member
    rcases member with first | digit
    · rwa [List.mem_singleton.mp first]
    · rw [Char.isAlphanum, isDigit_of_mem_numeral digit, Bool.or_true]
  cases k with
  | void => exact plain "void" (by decide) member
  | int bits => exact numbered 'i' bits (by decide) member
  | float bits =>
    rw [text_float] at member
    split at member
    · exact plain "float" (by decide) member
    split at member
    · exact plain "double" (by decide) member
    · exact numbered 'f' bits (by decide) member
  | pointer => exact plain "ptr" (by decide) member
  | label => exact plain "label" (by decide) member

theorem not_isAlphanum_of_separator : ∀ c ∈ separators, ¬ c.isAlphanum ∧ c ≠ '-' := by
  simp only [separators, List.forall_mem_cons]
  exact ⟨by decide, by decide, by decide, List.forall_mem_nil _⟩

variable (apart : c ∈ separators)

include apart

theorem not_mem_mark : ∀ mark ∈ marks, c ∉ mark.toList := by
  revert c
  simp [separators, marks]

theorem not_mem_integer (i : Int) : c ∉ (toString i).toList := fun member => by
  obtain ⟨other, sign⟩ := not_isAlphanum_of_separator c apart
  exact (isDigit_of_mem_integer member).elim (fun digit => other (by simp [Char.isAlphanum, digit]))
    sign

theorem not_mem_numeral (n : Nat) : c ∉ (toString n).toList := not_mem_integer apart n

theorem Opcode.not_mem_mnemonic (o : Opcode) : c ∉ o.mnemonic.toList := fun member =>
  (not_isAlphanum_of_separator c apart).1
    (by simp [Char.isAlphanum, isAlpha_of_mem_mnemonic member])

theorem Ty.not_mem_text (k : Ty) : c ∉ k.text.toList := fun member =>
  (not_isAlphanum_of_separator c apart).1 (isAlphanum_of_mem_text member)

end Separators

/-- A reference as programs write it, with a sign that tells its kind, and without some characters. -/
structure IsReference (sign : Char) (chars : List Char) (reference : String) : Prop where
  head?_eq : reference.toList.head? = some sign
  lacks : ∀ c ∈ chars, c ∉ reference.toList

namespace OperandForm

/-- The words before the last one of an operand: blocks are announced. -/
def lead : OperandForm → List String
  | .block _ => ["label"]
  | _ => []

def last : OperandForm → String
  | .value reference => reference
  | .block reference => reference
  | .immediate i => toString i

theorem text_eq (o : OperandForm) : o.text = " ".intercalate (o.lead ++ [o.last]) := by
  cases o with
  | value reference => simp [text, lead, last]
  | block reference =>
    apply String.toList_inj.mp
    simp [text, lead, last]
  | immediate i => simp [text, lead, last]

/-- The operand names what exists, and its reference lacks the characters. -/
def Clear (chars : List Char) : OperandForm → Prop
  | .value reference => ∃ sign ∈ ['@', '%'], IsReference sign chars reference
  | .block reference => IsReference '%' chars reference
  | .immediate _ => True

end OperandForm

namespace ValueForm

/-- Every operand but the last one ends in a comma. -/
def operandWords : List OperandForm → List String
  | [] => []
  | [o] => o.lead ++ [o.last]
  | o :: next :: rest => o.lead ++ (o.last ++ ",") :: operandWords (next :: rest)

def words : ValueForm → List String
  | .globalVariable reference storage (some initial) =>
    [reference, "=", "global", storage.text, toString initial]
  | .globalVariable reference storage none => [reference, "=", "external", "global", storage.text]
  | .parameter ty reference => [ty.text, reference]
  | .definition reference opcode ty operands =>
    reference :: "=" :: opcode.mnemonic :: ty.text :: operandWords operands
  | .effect opcode operands => opcode.mnemonic :: operandWords operands
  | .stray reference => [reference]
  | .invalid v => ["<invalid", ValueId.text v ++ ">"]

/-- All references are as programs write them, and lack the characters. -/
def Clear (chars : List Char) : ValueForm → Prop
  | .globalVariable reference _ _ => IsReference '@' chars reference
  | .parameter _ reference => IsReference '%' chars reference
  | .definition reference _ _ operands =>
    IsReference '%' chars reference ∧ ∀ o ∈ operands, o.Clear chars
  | .effect _ operands => ∀ o ∈ operands, o.Clear chars
  | .stray reference => IsReference '%' chars reference
  | .invalid _ => True

section Text

theorem operandWords_ne_nil (o : OperandForm) (rest : List OperandForm) :
    operandWords (o :: rest) ≠ [] := by
  cases rest <;> simp [operandWords]

/-- A comma ends the word that it follows. -/
theorem intercalate_comma (o : OperandForm) :
    " ".intercalate (o.lead ++ [o.last ++ ","]) = o.text ++ "," := by
  rw [o.text_eq]
  cases o <;> simp [OperandForm.lead, OperandForm.last, String.append_assoc]

theorem intercalate_operandWords (operands : List OperandForm) :
    " ".intercalate (operandWords operands) = ", ".intercalate (operands.map OperandForm.text) := by
  induction operands using operandWords.induct with
  | case1 => rfl
  | case2 o => rw [operandWords, ← o.text_eq, List.map_singleton, String.intercalate_singleton]
  | case3 o next rest ih =>
    have later := operandWords_ne_nil next rest
    have first : o.lead ++ [o.last ++ ","] ≠ [] := by simp
    have comma : ", " = "," ++ " " := rfl
    rw [operandWords, List.append_cons, String.intercalate_append_of_ne_nil first later,
      intercalate_comma, ih]
    simp only [List.map_cons, String.intercalate_cons_cons, String.append_assoc, comma]

theorem append_operandsText (word : String) (operands : List OperandForm) :
    word ++ operandsText operands = " ".intercalate (word :: operandWords operands) := by
  cases operands with
  | nil => simp [operandsText, operandWords]
  | cons o rest =>
    rw [String.intercalate_cons_of_ne_nil (operandWords_ne_nil o rest), intercalate_operandWords,
      operandsText, String.append_assoc]
    exact List.cons_ne_nil o rest

/-- A line is its words with blanks between them. -/
theorem text_eq_intercalate (f : ValueForm) : f.text = " ".intercalate f.words := by
  cases f with
  | globalVariable reference storage initial =>
    apply String.toList_inj.mp
    cases initial <;> simp [text, words]
  | parameter ty reference => simp [text, words]
  | definition reference opcode ty operands =>
    rw [text, words, append_operandsText, String.intercalate_cons_append]
    simp only [String.intercalate_cons_cons]
    apply String.toList_inj.mp
    simp
  | effect opcode operands => exact append_operandsText opcode.mnemonic operands
  | stray reference => simp [text, words]
  | invalid v =>
    apply String.toList_inj.mp
    simp [text, words, ValueId.text]

end Text

section Separators

variable {chars : List Char} (apart : c ∈ separators) (avoided : c ∈ chars)

include apart avoided

theorem not_mem_last {o : OperandForm} (clear : o.Clear chars) : c ∉ o.last.toList := by
  cases o with
  | value reference =>
    obtain ⟨_, _, written⟩ := clear
    exact written.lacks c avoided
  | block reference => exact clear.lacks c avoided
  | immediate i => exact not_mem_integer apart i

variable (other : c ≠ ',')

include other

theorem not_mem_operandWords {operands : List OperandForm}
    (clear : ∀ o ∈ operands, o.Clear chars) : ∀ w ∈ operandWords operands, c ∉ w.toList := by
  have lead : ∀ o : OperandForm, ∀ w ∈ o.lead, c ∉ w.toList := by
    rintro (_ | _ | _)
    · exact List.forall_mem_nil _
    · exact List.forall_mem_singleton.mpr (not_mem_mark apart "label" (by decide))
    · exact List.forall_mem_nil _
  induction operands using operandWords.induct with
  | case1 => exact List.forall_mem_nil _
  | case2 o =>
    rw [operandWords, List.forall_mem_append, List.forall_mem_singleton]
    exact ⟨lead o, not_mem_last apart avoided (clear o List.mem_cons_self)⟩
  | case3 o next rest ih =>
    obtain ⟨first, later⟩ := List.forall_mem_cons.mp clear
    have comma : c ∉ ",".toList := by simpa using other
    rw [operandWords, List.forall_mem_append, List.forall_mem_cons, String.toList_append,
      List.mem_append, not_or]
    exact ⟨lead o, ⟨not_mem_last apart avoided first, comma⟩, ih later⟩

/-- Whatever blank or end of a line is in a word has come from a reference. -/
theorem not_mem_words {f : ValueForm} (clear : f.Clear chars) : ∀ w ∈ f.words, c ∉ w.toList := by
  have mark : ∀ m ∈ marks, c ∉ m.toList := not_mem_mark apart
  have equals := mark "=" (by decide)
  have global := mark "global" (by decide)
  cases f with
  | globalVariable reference storage initial =>
    have name := clear.lacks c avoided
    have type := storage.not_mem_text apart
    cases initial with
    | none =>
      simp only [words, List.forall_mem_cons]
      exact ⟨name, equals, mark "external" (by decide), global, type, List.forall_mem_nil _⟩
    | some i =>
      simp only [words, List.forall_mem_cons]
      exact ⟨name, equals, global, type, not_mem_integer apart i, List.forall_mem_nil _⟩
  | parameter ty reference =>
    simp only [words, List.forall_mem_cons]
    exact ⟨ty.not_mem_text apart, clear.lacks c avoided, List.forall_mem_nil _⟩
  | definition reference opcode ty operands =>
    simp only [words, List.forall_mem_cons]
    exact ⟨clear.1.lacks c avoided, equals, opcode.not_mem_mnemonic apart, ty.not_mem_text apart,
      not_mem_operandWords apart avoided other clear.2⟩
  | effect opcode operands =>
    exact List.forall_mem_cons.mpr
      ⟨opcode.not_mem_mnemonic apart, not_mem_operandWords apart avoided other clear⟩
  | stray reference => exact List.forall_mem_singleton.mpr (clear.lacks c avoided)
  | invalid v =>
    simp only [words, ValueId.text, List.forall_mem_cons, String.toList_append, List.mem_append,
      not_or]
    exact ⟨mark "<invalid" (by decide), ⟨⟨mark "v" (by decide), not_mem_numeral apart v⟩,
      mark ">" (by decide)⟩, List.forall_mem_nil _⟩

end Separators

end ValueForm

namespace Program

/-- The names of all values, also of those that are in no function, and the labels of all blocks. -/
def names (p : Program) : List String :=
  p.values.toList.filterMap (·.name) ++
    p.functions.toList.flatMap fun f => f.flow.labels.toList.map (·.label)

/-- None of the characters is in a name or a label. -/
def NamesAvoid (p : Program) (chars : List Char) : Prop :=
  ∀ name ∈ p.names, ∀ c ∈ chars, c ∉ name.toList

instance (p : Program) (chars : List Char) : Decidable (p.NamesAvoid chars) :=
  @List.decidableBAll String (fun name => ∀ c ∈ chars, c ∉ name.toList)
    (fun name => List.decidableBAll (· ∉ name.toList) chars) p.names

variable {p : Program} {chars : List Char} {v : ValueId} {x : Value}

theorem mem_names_of_value? {name : String} (known : p.value? v = some x)
    (named : x.name = some name) : name ∈ p.names := by
  have member : x ∈ p.values.toList := Array.mem_toList_iff.mpr (Array.mem_of_getElem? known)
  exact List.mem_append_left _ (List.mem_filterMap.mpr ⟨x, member, named⟩)

theorem mem_names_of_block? {k : FunctionId} {f : Function} {b : Node} {content : Block}
    (known : p.functions[k]? = some f) (block : f.block? b = some content) :
    content.label ∈ p.names := by
  have function : f ∈ p.functions.toList := Array.mem_toList_iff.mpr (Array.mem_of_getElem? known)
  have label : content ∈ f.flow.labels.toList :=
    Array.mem_toList_iff.mpr (Array.mem_of_getElem? block)
  exact List.mem_append_right _
    (List.mem_flatMap.mpr ⟨f, function, List.mem_map.mpr ⟨content, label, rfl⟩⟩)

section Clear

variable (avoids : p.NamesAvoid chars) (separate : chars ⊆ separators)

include avoids separate

theorem isReference_of_value? (known : p.value? v = some x) :
    IsReference (if x.isGlobal then '@' else '%') chars x.reference where
  head?_eq := by
    unfold Value.reference
    split <;> simp
  lacks c avoided := by
    have apart := separate avoided
    have sign : c ∉ (if x.isGlobal then "@" else "%").toList := by
      split <;> exact not_mem_mark apart _ (by decide)
    rw [Value.reference, String.toList_append, List.mem_append, not_or]
    refine ⟨sign, ?_⟩
    cases named : x.name with
    | none => exact not_mem_numeral apart x.id
    | some name => exact avoids name (mem_names_of_value? known named) c avoided

theorem isReference_blockReference (k : FunctionId) (b : Node) :
    IsReference '%' chars (p.blockReference k b) := by
  unfold blockReference
  split
  · rename_i content found
    obtain ⟨f, known, block⟩ := Option.bind_eq_some_iff.mp found
    refine ⟨by simp, fun c avoided => ?_⟩
    rw [String.toList_append, List.mem_append, not_or]
    exact ⟨not_mem_mark (separate avoided) "%" (by decide),
      avoids _ (mem_names_of_block? known block) c avoided⟩
  · refine ⟨by simp, fun c avoided => ?_⟩
    rw [String.toList_append, List.mem_append, not_or]
    exact ⟨not_mem_mark (separate avoided) "%bb" (by decide), not_mem_numeral (separate avoided) b⟩

/-- In a program that can be built operands name values that exist. -/
theorem Coherent.clear_operands (coherent : p.Coherent) {k : FunctionId} {b : Node} {i : Instruction}
    (found : p.instruction? k b v = some i) :
    ∀ o ∈ i.operands.map (p.operandForm k), o.Clear chars := by
  obtain ⟨f, content, known, block, listed, _⟩ := instruction?_eq_some found
  have filled := coherent.filled k f b content known block
  refine List.forall_mem_map.mpr fun operand used => ?_
  cases operand with
  | value u =>
    obtain ⟨x, atU⟩ : ∃ x, p.value? u = some x :=
      ⟨_, Array.getElem?_eq_getElem (filled.value_operand i listed u used)⟩
    have written := isReference_of_value? avoids separate atU
    rw [operandForm, reference, atU]
    exact ⟨_, by split <;> decide, written⟩
  | block b => exact isReference_blockReference avoids separate k b
  | immediate n => trivial

theorem Coherent.clear_valueForm (coherent : p.Coherent) (v : ValueId) :
    (p.valueForm v).Clear chars := by
  unfold valueForm
  split
  · trivial
  rename_i x known
  have written := isReference_of_value? avoids separate known
  split
  all_goals
    rename_i origin
    simp only [Value.isGlobal, origin] at written
  · exact written
  · exact written
  · split
    · exact written
    · rename_i i found
      have operands := coherent.clear_operands avoids separate found
      split
      · exact operands
      · exact ⟨written, operands⟩

end Clear

end Program

end ReachingValues
