import ReachingValues.Proofs.Program.Words

/-!
Reading a value back from its text. No word of a listing contains a blank, so the text tells the
words. The sign of the first word tells what kind of value is written; a first word without a sign is
a mnemonic, or else it is a type, since no type is a mnemonic. Commas are found only at the ends of
operands, and a block among the operands is announced by a word that no other operand is written as.
-/

namespace ReachingValues

/-- The number that digits stand for. -/
def readNumeral (digits : List Char) : Nat := Nat.ofDigitChars 10 digits 0

/-- The number that is written in a word, with a sign if it is negative. -/
def readInteger (word : String) : Int :=
  match word.toList with
  | '-' :: digits => -(readNumeral digits)
  | digits => readNumeral digits

theorem readNumeral_toString (n : Nat) : readNumeral (toString n).toList = n := by
  rw [readNumeral, Nat.toString_eq_repr, Nat.toList_repr, Nat.ofDigitChars_ten_toDigits]

theorem readInteger_toString (i : Int) : readInteger (toString i) = i := by
  cases i with
  | ofNat n =>
    have unsigned : ∀ digits, (toString n).toList ≠ '-' :: digits := fun digits same =>
      absurd (isDigit_of_mem_numeral (c := '-') (by rw [same]; simp)) (by decide)
    have written : (toString (Int.ofNat n)).toList = (toString n).toList := rfl
    rw [readInteger, written]
    split
    · exact absurd ‹_› (unsigned _)
    · exact congrArg Int.ofNat (readNumeral_toString n)
  | negSucc n =>
    have written : (toString (Int.negSucc n)).toList = '-' :: (toString (n + 1)).toList := by
      rw [Int.toString_eq_repr, Int.repr_eq_if, if_neg (by omega)]
      simp [String.toList_append]
    rw [readInteger, written]
    exact congrArg (fun m : Nat => -(m : Int)) (readNumeral_toString (n + 1))

namespace Opcode

def ofMnemonic? (word : String) : Option Opcode := all.find? (·.mnemonic == word)

theorem ofMnemonic?_mnemonic (o : Opcode) : ofMnemonic? o.mnemonic = some o := by
  cases o <;> decide

end Opcode

namespace Ty

/-- The types that are written without a number. -/
def plain : List (String × Ty) :=
  [("void", .void), ("float", .float 32), ("double", .float 64), ("ptr", .pointer), ("label", .label)]

/-- The types that are written as a letter and a number. -/
def sized : List (Char × (Nat → Ty)) := [('i', .int), ('f', .float)]

def ofText? (word : String) : Option Ty :=
  match plain.lookup word, word.toList with
  | some k, _ => some k
  | none, initial :: digits =>
    (sized.lookup initial).map fun make => make (readNumeral digits)
  | none, [] => none

/-- There is a digit in the word, as in no mnemonic and no type that is written without a number. -/
def Numbered (word : String) : Prop := ∃ c ∈ word.toList, c.isDigit

theorem numbered_append (word : String) (n : Nat) : Numbered (word ++ toString n) := by
  have nonempty : (toString n).toList ≠ [] := by simp
  obtain ⟨c, rest, digits⟩ := List.exists_cons_of_ne_nil nonempty
  have member : c ∈ (toString n).toList := digits ▸ List.mem_cons_self
  refine ⟨c, ?_, isDigit_of_mem_numeral member⟩
  rw [String.toList_append]
  exact List.mem_append_right _ member

theorem Numbered.ne {word other : String} (numbered : Numbered word)
    (letters : other.toList.all fun c => !c.isDigit) : word ≠ other := by
  rintro rfl
  obtain ⟨c, member, digit⟩ := numbered
  exact absurd digit (by simpa using List.all_eq_true.mp letters c member)

theorem lookup_plain_of_numbered {word : String} (numbered : Numbered word) :
    plain.lookup word = none := by
  have letters : ∀ entry ∈ plain, entry.1.toList.all fun c => !c.isDigit := by decide
  exact List.lookup_eq_none_iff.mpr fun entry listed =>
    bne_iff_ne.mpr (numbered.ne (letters entry listed))

theorem ofMnemonic?_of_numbered {word : String} (numbered : Numbered word) :
    Opcode.ofMnemonic? word = none := by
  have letters : ∀ o : Opcode, o.mnemonic.toList.all fun c => !c.isDigit := fun o => by
    cases o <;> decide
  exact List.find?_eq_none.mpr fun o _ same => numbered.ne (letters o) (beq_iff_eq.mp same).symm

theorem ofText?_sized {initial : Char} {make : Nat → Ty} (listed : sized.lookup initial = some make)
    (bits : Nat) : ofText? (String.singleton initial ++ toString bits) = some (make bits) := by
  have letters : (String.singleton initial ++ toString bits).toList =
      initial :: (toString bits).toList := by simp
  simp only [ofText?, lookup_plain_of_numbered (numbered_append _ bits), letters, listed,
    Option.map_some, readNumeral_toString]

theorem ofText?_text (k : Ty) : ofText? k.text = some k := by
  cases k with
  | void => decide
  | int bits => exact ofText?_sized (by rfl : sized.lookup 'i' = some .int) bits
  | float bits =>
    rw [text_float]
    split
    · rename_i same
      subst same
      decide
    split
    · rename_i same
      subst same
      decide
    · exact ofText?_sized (by rfl : sized.lookup 'f' = some .float) bits
  | pointer => decide
  | label => decide

/-- No type is a mnemonic. -/
theorem ofMnemonic?_text (k : Ty) : Opcode.ofMnemonic? k.text = none := by
  cases k with
  | void => decide
  | int bits => exact ofMnemonic?_of_numbered (numbered_append "i" bits)
  | float bits =>
    rw [text_float]
    split
    · decide
    split
    · decide
    · exact ofMnemonic?_of_numbered (numbered_append "f" bits)
  | pointer => decide
  | label => decide

end Ty

/-- A word without its commas. -/
def withoutCommas (word : String) : String := String.ofList (word.toList.filter (· ≠ ','))

theorem withoutCommas_eq {word : String} (lacks : ',' ∉ word.toList) : withoutCommas word = word := by
  have kept : word.toList.filter (· ≠ ',') = word.toList :=
    List.filter_eq_self.mpr fun c member => by simpa using ne_of_mem_of_not_mem member lacks
  rw [withoutCommas, kept, String.ofList_toList]

theorem withoutCommas_append {word : String} (lacks : ',' ∉ word.toList) :
    withoutCommas (word ++ ",") = word := by
  have trailing : (word ++ ",").toList.filter (· ≠ ',') = word.toList.filter (· ≠ ',') := by
    simp [String.toList_append]
  rw [withoutCommas, trailing]
  exact withoutCommas_eq lacks

namespace OperandForm

/-- The operand that is written as a word, if it is no block. -/
def ofWord (word : String) : OperandForm :=
  if word.toList.head? = some '@' ∨ word.toList.head? = some '%' then .value word
  else .immediate (readInteger word)

/-- The operands in a row of words. -/
def readAll : List String → List OperandForm
  | [] => []
  | "label" :: reference :: rest => .block (withoutCommas reference) :: readAll rest
  | word :: rest => ofWord (withoutCommas word) :: readAll rest

theorem ofWord_last {o : OperandForm} (clear : o.Clear [',']) (single : o.lead = []) :
    ofWord o.last = o := by
  cases o with
  | value reference =>
    obtain ⟨sign, kind, written⟩ := clear
    have signed : reference.toList.head? = some '@' ∨ reference.toList.head? = some '%' := by
      rw [written.head?_eq]
      simpa using kind
    rw [last, ofWord, if_pos signed]
  | block reference => cases single
  | immediate i =>
    have unsigned : ¬((toString i).toList.head? = some '@' ∨ (toString i).toList.head? = some '%') := by
      rintro (first | first) <;>
      exact absurd (isDigit_of_mem_integer (List.mem_of_head? first)) (by decide)
    rw [last, ofWord, if_neg unsigned, readInteger_toString]

/-- No operand is written as the word that announces blocks. -/
theorem last_ne_label {o : OperandForm} (clear : o.Clear [',']) (single : o.lead = []) :
    o.last ≠ "label" := by
  intro same
  cases o with
  | value reference =>
    obtain ⟨sign, kind, written⟩ := clear
    obtain rfl : reference = "label" := same
    obtain rfl : 'l' = sign := by simpa using written.head?_eq
    exact absurd kind (by decide)
  | block reference => cases single
  | immediate i =>
    have letter : 'l' ∈ (immediate i).last.toList := by
      rw [same]
      simp
    exact absurd (isDigit_of_mem_integer letter) (by decide)

theorem readAll_append {o : OperandForm} (clear : o.Clear [',']) {word : String}
    (ends : withoutCommas word = o.last) (rest : List String) :
    readAll (o.lead ++ word :: rest) = o :: readAll rest := by
  -- without an announcement the operand is its last word
  have single : o.lead = [] → readAll (word :: rest) = o :: readAll rest := fun single => by
    rw [readAll, ends, ofWord_last clear single]
    rintro _ _ rfl _
    exact last_ne_label clear single (ends ▸ withoutCommas_eq (by simp))
  cases o with
  | value reference => exact single rfl
  | block reference => rw [lead, List.singleton_append, readAll, ends, last]
  | immediate i => exact single rfl

theorem readAll_operandWords {operands : List OperandForm}
    (clear : ∀ o ∈ operands, o.Clear [',']) :
    readAll (ValueForm.operandWords operands) = operands := by
  have comma : ∀ o : OperandForm, o.Clear [','] → ',' ∉ o.last.toList := fun o clear =>
    ValueForm.not_mem_last (by decide) (List.mem_singleton_self _) clear
  induction operands using ValueForm.operandWords.induct with
  | case1 => rfl
  | case2 o =>
    have only := clear o List.mem_cons_self
    rw [ValueForm.operandWords, readAll_append only (withoutCommas_eq (comma o only)), readAll]
  | case3 o next rest ih =>
    obtain ⟨first, later⟩ := List.forall_mem_cons.mp clear
    rw [ValueForm.operandWords, readAll_append first (withoutCommas_append (comma o first)), ih later]

end OperandForm

namespace ValueForm

/-- What follows the reference of a global variable. -/
def readGlobal (reference : String) : List String → Option ValueForm
  | ["=", "global", storage, initial] => do
    return .globalVariable reference (← Ty.ofText? storage) (some (readInteger initial))
  | ["=", "external", "global", storage] => do
    return .globalVariable reference (← Ty.ofText? storage) none
  | _ => none

/-- What follows the reference of an instruction. -/
def readInstruction (reference : String) : List String → Option ValueForm
  | [] => some (.stray reference)
  | "=" :: mnemonic :: ty :: operands => do
    return .definition reference (← Opcode.ofMnemonic? mnemonic) (← Ty.ofText? ty)
      (OperandForm.readAll operands)
  | _ => none

/-- A line that begins without a sign. Only parameters begin with a type. -/
def readUnsigned (first : String) (rest : List String) : Option ValueForm :=
  match Opcode.ofMnemonic? first, rest with
  | some opcode, operands => some (.effect opcode (OperandForm.readAll operands))
  | none, [reference] => (Ty.ofText? first).map (.parameter · reference)
  | none, _ => none

/-- What follows the mark of a handle without a value. -/
def readHandle : List String → Option ValueForm
  | [word] => some (.invalid (readNumeral (word.toList.filter Char.isDigit)))
  | _ => none

/-- The description of a value, from the words of its line. -/
def readWords : List String → Option ValueForm
  | [] => none
  | first :: rest =>
    match first.toList.head? with
    | some '@' => readGlobal first rest
    | some '%' => readInstruction first rest
    | some '<' => readHandle rest
    | _ => readUnsigned first rest

section Words

variable {first : String} {chars : List Char} (rest : List String)

theorem readWords_global (written : IsReference '@' chars first) :
    readWords (first :: rest) = readGlobal first rest := by
  simp only [readWords, written.head?_eq]

theorem readWords_instruction (written : IsReference '%' chars first) :
    readWords (first :: rest) = readInstruction first rest := by
  simp only [readWords, written.head?_eq]

theorem readWords_unsigned (unsigned : ∀ c ∈ first.toList, c.isAlphanum) :
    readWords (first :: rest) = readUnsigned first rest := by
  have other : ∀ c, ¬ c.isAlphanum → first.toList.head? ≠ some c := fun c sign same =>
    sign (unsigned c (List.mem_of_head? same))
  rw [readWords]
  split
  · exact absurd ‹_› (other '@' (by decide))
  · exact absurd ‹_› (other '%' (by decide))
  · exact absurd ‹_› (other '<' (by decide))
  · rfl

end Words

theorem readHandle_text (v : ValueId) : readHandle [ValueId.text v ++ ">"] = some (.invalid v) := by
  have digits : (toString v).toList.filter Char.isDigit = (toString v).toList :=
    List.filter_eq_self.mpr fun c member => isDigit_of_mem_numeral member
  have handle : (ValueId.text v ++ ">").toList.filter Char.isDigit = (toString v).toList := by
    have before : "v".toList.filter Char.isDigit = [] := by decide
    have after : ">".toList.filter Char.isDigit = [] := by decide
    simp only [ValueId.text, String.toList_append, List.filter_append, before, after, digits,
      List.nil_append, List.append_nil]
  rw [readHandle, handle, readNumeral_toString]

/-- Nothing is lost when a description is put into words. -/
theorem readWords_words {f : ValueForm} (clear : f.Clear [',']) : readWords f.words = some f := by
  cases f with
  | globalVariable reference storage initial =>
    cases initial with
    | none =>
      rw [words, readWords_global _ clear, readGlobal, storage.ofText?_text]
      rfl
    | some i =>
      rw [words, readWords_global _ clear, readGlobal, storage.ofText?_text, readInteger_toString]
      rfl
  | parameter ty reference =>
    rw [words, readWords_unsigned _ fun c => ty.isAlphanum_of_mem_text]
    simp only [readUnsigned, ty.ofMnemonic?_text, ty.ofText?_text, Option.map_some]
  | definition reference opcode ty operands =>
    obtain ⟨written, clear⟩ := clear
    rw [words, readWords_instruction _ written, readInstruction, opcode.ofMnemonic?_mnemonic,
      ty.ofText?_text, OperandForm.readAll_operandWords clear]
    rfl
  | effect opcode operands =>
    have letters : ∀ c ∈ opcode.mnemonic.toList, c.isAlphanum := fun c member => by
      rw [Char.isAlphanum, opcode.isAlpha_of_mem_mnemonic member, Bool.true_or]
    rw [words, readWords_unsigned _ letters]
    simp only [readUnsigned, opcode.ofMnemonic?_mnemonic, OperandForm.readAll_operandWords clear]
  | stray reference => rw [words, readWords_instruction _ clear, readInstruction]
  | invalid v => exact readHandle_text v

/-- The description of a value, from its text. -/
def read (text : String) : Option ValueForm := readWords (pieces ' ' text)

theorem words_ne_nil (f : ValueForm) : f.words ≠ [] := by
  rcases f with ⟨_, _, _ | _⟩ | _ | _ | _ | _ | _ <;> simp [words]

theorem read_text {f : ValueForm} (blank : f.Clear [' ']) (comma : f.Clear [',']) :
    read f.text = some f := by
  have lacks : ∀ w ∈ f.words, ' ' ∉ w.toList :=
    not_mem_words (by decide) (List.mem_singleton_self _) (by decide) blank
  have split : pieces ' ' f.text = f.words :=
    f.text_eq_intercalate ▸ pieces_intercalate f.words_ne_nil lacks
  rw [read, split, readWords_words comma]

end ValueForm

theorem Ty.isVoid_iff {k : Ty} : k.isVoid ↔ k = .void := by
  cases k <;> simp [isVoid]

namespace Program

/-- What a value is printed as, by what the arena has about it and, if it is the value of an
instruction, by the instruction that its function has. -/
inductive PrintsAs (p : Program) (v : ValueId) : ValueForm → Prop
  | globalVariable {x : Value} {storage : Ty} {initial : Option Int} (known : p.value? v = some x)
    (origin : x.origin = .globalVariable storage initial) :
    PrintsAs p v (.globalVariable x.reference storage initial)
  | parameter {x : Value} {k : FunctionId} {position : Nat} (known : p.value? v = some x)
    (origin : x.origin = .parameter k position) : PrintsAs p v (.parameter x.ty x.reference)
  | definition {x : Value} {k : FunctionId} {b : Node} {i : Instruction}
    (known : p.value? v = some x) (origin : x.origin = .instruction k b)
    (found : p.instruction? k b v = some i) (result : x.ty ≠ .void) :
    PrintsAs p v (.definition x.reference i.opcode x.ty (i.operands.map (p.operandForm k)))
  | effect {x : Value} {k : FunctionId} {b : Node} {i : Instruction}
    (known : p.value? v = some x) (origin : x.origin = .instruction k b)
    (found : p.instruction? k b v = some i) (result : x.ty = .void) :
    PrintsAs p v (.effect i.opcode (i.operands.map (p.operandForm k)))
  | stray {x : Value} {k : FunctionId} {b : Node} (known : p.value? v = some x)
    (origin : x.origin = .instruction k b) (missing : p.instruction? k b v = none) :
    PrintsAs p v (.stray x.reference)
  | invalid (unknown : p.value? v = none) : PrintsAs p v (.invalid v)

variable {p q : Program} {v : ValueId}

theorem Coherent.printsAs_valueForm (coherent : p.Coherent) (v : ValueId) :
    p.PrintsAs v (p.valueForm v) := by
  unfold valueForm
  split
  · exact .invalid ‹_›
  rename_i x known
  rw [coherent.value_id v x known]
  split
  · exact .globalVariable known ‹_›
  · exact .parameter known ‹_›
  · split
    · exact .stray known ‹_› ‹_›
    · dsimp only
      split
      · exact .effect known ‹_› ‹_› (Ty.isVoid_iff.mp ‹_›)
      · exact .definition known ‹_› ‹_› (mt Ty.isVoid_iff.mpr ‹_›)

theorem Coherent.valueForm_of_printsAs (coherent : p.Coherent) {f : ValueForm}
    (prints : p.PrintsAs v f) : p.valueForm v = f := by
  cases prints with
  | globalVariable known origin => simp only [valueForm, known, origin]
  | parameter known origin => simp only [valueForm, known, origin]
  | definition known origin found result =>
    have id := coherent.value_id v _ known
    simp only [valueForm, known, origin, id, found, if_neg (mt Ty.isVoid_iff.mp result)]
  | effect known origin found result =>
    have id := coherent.value_id v _ known
    simp only [valueForm, known, origin, id, found, if_pos (Ty.isVoid_iff.mpr result)]
  | stray known origin missing =>
    have id := coherent.value_id v _ known
    simp only [valueForm, known, origin, id, missing]
  | invalid unknown => simp only [valueForm, unknown]

theorem NamesAvoid.mono {chars others : List Char} (avoids : p.NamesAvoid chars)
    (fewer : others ⊆ chars) : p.NamesAvoid others :=
  fun name listed c other => avoids name listed c (fewer other)

theorem Built.read_valueText (built : p.Built) (avoids : p.NamesAvoid [' ', ',']) (v : ValueId) :
    ValueForm.read (p.valueText v) = some (p.valueForm v) :=
  ValueForm.read_text
    (built.coherent.clear_valueForm (avoids.mono (by simp)) (by simp [separators]) v)
    (built.coherent.clear_valueForm (avoids.mono (by simp)) (by simp [separators]) v)

/-- If no name and no label contains a blank or a comma, then values have the same text, in one
program or in two, just when one description fits both. -/
theorem valueText_eq_iff (first : p.Built) (second : q.Built)
    (avoids : p.NamesAvoid [' ', ',']) (avoids' : q.NamesAvoid [' ', ',']) (v w : ValueId) :
    p.valueText v = q.valueText w ↔ ∃ f, p.PrintsAs v f ∧ q.PrintsAs w f := by
  constructor
  · intro same
    have forms : some (p.valueForm v) = some (q.valueForm w) := by
      rw [← first.read_valueText avoids, ← second.read_valueText avoids', same]
    have written := second.coherent.printsAs_valueForm w
    rw [← Option.some.inj forms] at written
    exact ⟨_, first.coherent.printsAs_valueForm v, written⟩
  · rintro ⟨f, printed, printed'⟩
    rw [valueText, valueText, first.coherent.valueForm_of_printsAs printed,
      second.coherent.valueForm_of_printsAs printed']

/-- A function that adds one, in a program with some global variables. -/
def increment (globals : Nat) : Program := (empty "sample").performAll
  (List.replicate globals (.globalVariable "g" (.int 32) none) ++
    [.session ⟨"f", [("n", .int 32)],
      [.block "entry", .binary 0 "x" .add (.int 32) (.value globals) (.immediate 1),
        .ret 0 (some (globals + 1))], true⟩])

theorem increment_built (globals : Nat) : (increment globals).Built := ⟨_, _, rfl⟩

/-- One line that stands in two programs, under two handles. -/
theorem valueText_eq_iff_increment :
    (increment 0).NamesAvoid [' ', ','] ∧ (increment 1).NamesAvoid [' ', ','] ∧
      (increment 0).valueText 1 = "%x = add i32 %n, 1" ∧
      (increment 1).valueText 2 = "%x = add i32 %n, 1" ∧
      ∃ f, (increment 0).PrintsAs 1 f ∧ (increment 1).PrintsAs 2 f := by
  have first : (increment 0).NamesAvoid [' ', ','] := by decide
  have second : (increment 1).NamesAvoid [' ', ','] := by decide
  have line : (increment 0).valueText 1 = "%x = add i32 %n, 1" := by decide
  have line' : (increment 1).valueText 2 = "%x = add i32 %n, 1" := by decide
  exact ⟨first, second, line, line', (valueText_eq_iff (increment_built 0) (increment_built 1)
    first second 1 2).mp (line.trans line'.symm)⟩

end Program

end ReachingValues
