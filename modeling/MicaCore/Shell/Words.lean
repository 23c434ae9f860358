import MicaCore.Deploy.Identity

namespace MicaCore.Shell

open Data

structure Word where
  bare : Text
  rest : Text := []
  deriving DecidableEq

def Word.text (w : Word) : Text := w.bare ++ w.rest

inductive Token where
  | word (w : Word)
  | operator (c : Char)
  deriving DecidableEq

structure Piece where
  bare : Text := []
  rest : Option Text := none

def Piece.word (p : Piece) : Word := ⟨p.bare, p.rest.getD []⟩

def Piece.push (p : Piece) (c : Char) : Piece :=
  match p.rest with
  | none => { p with bare := p.bare ++ [c] }
  | some t => { p with rest := some (t ++ [c]) }

def Piece.quote (p : Piece) (t : Text := []) : Piece :=
  { p with rest := some (p.rest.getD [] ++ t) }

inductive Mode where
  | bare
  | bareEscape
  | single
  | double
  | doubleEscape
  | comment

def blank (c : Char) : Bool := c == ' ' || c == '\t'

def isOperator (c : Char) : Bool := "\n;&|()<>".toList.contains c

def expands (c : Char) : Bool := "$`*?[~".toList.contains c

def emit (p : Option Piece) : List Token := (p.map fun p ↦ Token.word p.word).toList

/-- Words with quotes removed; none for an open quote or an expansion. -/
def tokens : Mode → Option Piece → Text → Option (List Token)
  | .bare, p, [] => some (emit p)
  | .comment, _, [] => some []
  | _, _, [] => none
  | .comment, _, c :: t =>
    if c = '\n' then (tokens .bare none t).map (.operator '\n' :: ·) else tokens .comment none t
  | .single, p, c :: t =>
    if c = '\'' then tokens .bare p t else tokens .single (some ((p.getD {}).quote [c])) t
  | .double, p, c :: t =>
    if c = '"' then tokens .bare p t
    else if c = '\\' then tokens .doubleEscape p t
    else if c = '$' ∨ c = '`' then none
    else tokens .double (some ((p.getD {}).quote [c])) t
  | .doubleEscape, p, c :: t =>
    if c = '\n' then tokens .double p t
    else if "$`\"\\".toList.contains c then tokens .double (some ((p.getD {}).quote [c])) t
    else tokens .double (some ((p.getD {}).quote ['\\', c])) t
  | .bareEscape, p, c :: t =>
    if c = '\n' then tokens .bare p t else tokens .bare (some ((p.getD {}).quote [c])) t
  | .bare, p, c :: t =>
    if blank c then (tokens .bare none t).map (emit p ++ ·)
    else if c = '\'' then tokens .single (some ((p.getD {}).quote)) t
    else if c = '"' then tokens .double (some ((p.getD {}).quote)) t
    else if c = '\\' then tokens .bareEscape p t
    else if c = '#' ∧ p.isNone then tokens .comment none t
    else if isOperator c then (tokens .bare none t).map (emit p ++ .operator c :: ·)
    else if expands c then none
    else tokens .bare (some ((p.getD {}).push c)) t

def nameChar (c : Char) : Bool := c.isAlphanum || c == '_'

def assignment (w : Word) : Option (Text × Text) :=
  (splitOnce '=' w.bare).bind fun (name, value) ↦
    if !name.isEmpty && name.all nameChar && !name.head?.any Char.isDigit then
      some (name, value ++ w.rest)
    else none

/-- What a script of assignments gives values to; function bodies are passed over. -/
def assignments : Bool → List Token → Option (List (Text × Text))
  | false, [] => some []
  | true, [] => none
  | true, .word w :: ts => assignments (w.text != ['}']) ts
  | true, .operator _ :: ts => assignments true ts
  | false, .operator '\n' :: ts => assignments false ts
  | false, .word w :: .operator '\n' :: ts =>
    (assignment w).bind fun a ↦ (assignments false ts).map (a :: ·)
  | false, .word _ :: .operator '(' :: .operator ')' :: .word w :: ts =>
    if w.text = ['{'] then assignments true ts else none
  | false, _ => none

def scriptVariables (script : Text) : Option (List (Text × Text)) :=
  (tokens .bare none script).bind (assignments false)

def valueOf (name : Text) (vars : List (Text × Text)) : Option Text := vars.reverse.lookup name

def plainWords : List Token → Option (List Text)
  | [] => some []
  | .word w :: ts => (plainWords ts).map (w.text :: ·)
  | .operator _ :: _ => none

def words (t : Text) : Option (List Text) := (tokens .bare none t).bind plainWords

def assignBare (name value : Text) : Text := name ++ '=' :: value

def assignQuoted (name value : Text) : Text := name ++ '=' :: '"' :: (value ++ ['"'])

def unlines (lines : List Text) : Text := lines.flatMap (· ++ ['\n'])

def singleQuoted (w : Text) : Text := '\'' :: (w ++ ['\''])

def Inert (t : Text) : Prop := ∀ c ∈ t, c ≠ '"' ∧ c ≠ '\\' ∧ c ≠ '$' ∧ c ≠ '`'

def literal (c : Char) : Bool :=
  !(blank c || isOperator c || expands c || c == '\'' || c == '"' || c == '\\' || c == '#')

@[simp] theorem Piece.quote_quote (p : Piece) (t u : Text) :
    (p.quote t).quote u = p.quote (t ++ u) := by
  simp [Piece.quote]

section Step

variable (p : Option Piece) (c : Char) (t : Text)

theorem tokens_comment_cons : tokens .comment p (c :: t) =
    if c = '\n' then (tokens .bare none t).map (.operator '\n' :: ·) else tokens .comment none t := rfl

theorem tokens_single_cons : tokens .single p (c :: t) =
    if c = '\'' then tokens .bare p t else tokens .single (some ((p.getD {}).quote [c])) t := rfl

theorem tokens_double_cons : tokens .double p (c :: t) =
    if c = '"' then tokens .bare p t
    else if c = '\\' then tokens .doubleEscape p t
    else if c = '$' ∨ c = '`' then none
    else tokens .double (some ((p.getD {}).quote [c])) t := rfl

theorem tokens_bare_cons : tokens .bare p (c :: t) =
    if blank c then (tokens .bare none t).map (emit p ++ ·)
    else if c = '\'' then tokens .single (some ((p.getD {}).quote)) t
    else if c = '"' then tokens .double (some ((p.getD {}).quote)) t
    else if c = '\\' then tokens .bareEscape p t
    else if c = '#' ∧ p.isNone then tokens .comment none t
    else if isOperator c then (tokens .bare none t).map (emit p ++ .operator c :: ·)
    else if expands c then none
    else tokens .bare (some ((p.getD {}).push c)) t := rfl

end Step

variable {w : Text}

theorem tokens_single (h : '\'' ∉ w) (p : Piece) (t : Text) (rest : Text) :
    tokens .single (some (p.quote t)) (w ++ '\'' :: rest) =
      tokens .bare (some (p.quote (t ++ w))) rest := by
  induction w generalizing t with
  | nil => simp [tokens_single_cons]
  | cons c w ih =>
    simp only [List.mem_cons, not_or] at h
    obtain ⟨hc, hw⟩ := h
    simp [tokens_single_cons, Ne.symm hc, ih hw]

theorem tokens_double (h : Inert w) (p : Piece) (t : Text) (rest : Text) :
    tokens .double (some (p.quote t)) (w ++ '"' :: rest) =
      tokens .bare (some (p.quote (t ++ w))) rest := by
  induction w generalizing t with
  | nil => simp [tokens_double_cons]
  | cons c w ih =>
    obtain ⟨⟨hquote, hslash, hdollar, htick⟩, hw⟩ := List.forall_mem_cons.1 h
    simp [tokens_double_cons, hquote, hslash, hdollar, htick, ih hw]

theorem tokens_singleQuoted (h : '\'' ∉ w) (rest : Text) :
    tokens .bare none (singleQuoted w ++ rest) = tokens .bare (some ⟨[], some w⟩) rest := by
  have hsingle := tokens_single h {} [] rest
  simpa [singleQuoted, tokens_bare_cons, blank, Piece.quote] using hsingle

theorem tokens_line {ws : List Text} (h : ∀ w ∈ ws, '\'' ∉ w) :
    tokens .bare none ([' '].intercalate (ws.map singleQuoted)) =
      some (ws.map fun w ↦ .word ⟨[], w⟩) := by
  induction ws with
  | nil => rfl
  | cons w ws ih =>
    obtain ⟨hw, hws⟩ := List.forall_mem_cons.1 h
    cases ws with
    | nil =>
      have heq := tokens_singleQuoted hw []
      simpa [tokens, emit, Piece.word] using heq
    | cons v ws =>
      have hsep : [' '].intercalate ((w :: v :: ws).map singleQuoted) =
          singleQuoted w ++ ' ' :: [' '].intercalate ((v :: ws).map singleQuoted) := by
        simp [List.intercalate]
      rw [hsep, tokens_singleQuoted hw]
      simp only [tokens_bare_cons, blank]
      rw [ih hws]
      simp [emit, Piece.word]

theorem tokens_literal (h : w.all literal = true) (bare : Text) (rest : Text) :
    tokens .bare (some ⟨bare, none⟩) (w ++ rest) = tokens .bare (some ⟨bare ++ w, none⟩) rest := by
  induction w generalizing bare with
  | nil => simp
  | cons c w ih =>
    simp only [List.all_cons, Bool.and_eq_true] at h
    obtain ⟨hc, hw⟩ := h
    simp only [literal, Bool.not_eq_true', Bool.or_eq_false_iff, beq_eq_false_iff_ne] at hc
    have hstep : tokens .bare (some ⟨bare, none⟩) (c :: (w ++ rest)) =
        tokens .bare (some ⟨bare ++ [c], none⟩) (w ++ rest) := by
      simp [tokens_bare_cons, hc, Piece.push]
    rw [List.cons_append, hstep, ih hw]
    simp

theorem tokens_comment (h : '\n' ∉ w) (rest : Text) :
    tokens .comment none (w ++ '\n' :: rest) =
      (tokens .bare none rest).map (.operator '\n' :: ·) := by
  induction w with
  | nil => simp [tokens_comment_cons]
  | cons c w ih =>
    simp only [List.mem_cons, not_or] at h
    obtain ⟨hc, hw⟩ := h
    simp [tokens_comment_cons, Ne.symm hc, ih hw]

theorem tokens_word (h : w.all literal = true) (hne : w ≠ []) (rest : Text) :
    tokens .bare none (w ++ rest) = tokens .bare (some ⟨w, none⟩) rest := by
  cases w with
  | nil => exact absurd rfl hne
  | cons c w =>
    rw [List.all_cons, Bool.and_eq_true] at h
    have hstep : tokens .bare none (c :: (w ++ rest)) = tokens .bare (some ⟨[c], none⟩) (w ++ rest) := by
      have hc := h.1
      simp only [literal, Bool.not_eq_true', Bool.or_eq_false_iff, beq_eq_false_iff_ne] at hc
      simp [tokens_bare_cons, hc, Piece.push]
    rw [List.cons_append, hstep, tokens_literal h.2]
    rfl

theorem tokens_newline (p : Option Piece) (rest : Text) :
    tokens .bare p ('\n' :: rest) = (tokens .bare none rest).map (emit p ++ .operator '\n' :: ·) := by
  simp [tokens_bare_cons, blank, isOperator]

theorem scriptVariables_gap (rest : Text) :
    scriptVariables ('\n' :: rest) = scriptVariables rest := by
  rw [scriptVariables, tokens_newline, scriptVariables]
  cases tokens .bare none rest <;> simp [emit, assignments]

theorem scriptVariables_comment (h : '\n' ∉ w) (rest : Text) :
    scriptVariables ('#' :: w ++ '\n' :: rest) = scriptVariables rest := by
  have hhash : tokens .bare none ('#' :: (w ++ '\n' :: rest)) =
      tokens .comment none (w ++ '\n' :: rest) := by
    simp [tokens_bare_cons, blank]
  rw [List.cons_append, scriptVariables, hhash, tokens_comment h, scriptVariables]
  cases tokens .bare none rest <;> simp [assignments]

theorem unlines_cons (line : Text) (lines : List Text) :
    unlines (line :: lines) = line ++ '\n' :: unlines lines := by
  simp [unlines]

def IsName (name : Text) : Prop :=
  name ≠ [] ∧ name.all nameChar = true ∧ name.head?.any Char.isDigit = false

instance (name : Text) : Decidable (IsName name) :=
  inferInstanceAs (Decidable (name ≠ [] ∧ name.all nameChar = true ∧ name.head?.any Char.isDigit = false))

theorem literal_of_nameChar {c : Char} (h : nameChar c = true) : literal c = true := by
  by_contra hlit
  have hsign : c ∈ [' ', '\t', '\n', ';', '&', '|', '(', ')', '<', '>', '$', '`', '*', '?', '[', '~',
      '\'', '"', '\\', '#'] := by
    simpa [literal, blank, isOperator, expands, or_iff_not_imp_left] using hlit
  have hnone : [' ', '\t', '\n', ';', '&', '|', '(', ')', '<', '>', '$', '`', '*', '?', '[', '~',
      '\'', '"', '\\', '#'].all (fun d ↦ !nameChar d) = true := by
    decide
  simpa [h] using List.all_eq_true.1 hnone c hsign

variable {name : Text}

theorem IsName.all_literal (h : IsName name) : (name ++ ['=']).all literal = true := by
  rw [List.all_append, Bool.and_eq_true]
  exact ⟨List.all_eq_true.2 fun c hc ↦ literal_of_nameChar (List.all_eq_true.1 h.2.1 c hc), by decide⟩

theorem IsName.assignment (h : IsName name) (value rest : Text) :
    assignment ⟨name ++ '=' :: value, rest⟩ = some (name, value ++ rest) := by
  have hnot : '=' ∉ name := fun hmem ↦ by
    have := List.all_eq_true.1 h.2.1 _ hmem
    revert this
    decide
  have hchars := List.all_eq_true.1 h.2.1
  simpa [Shell.assignment, splitOnce_append _ hnot, h.1, h.2.2] using hchars

theorem scriptVariables_of_word {t rest : Text} {w : Word} {a : Text × Text}
    (h : tokens .bare none t = (tokens .bare none rest).map ([.word w] ++ .operator '\n' :: ·))
    (ha : assignment w = some a) : scriptVariables t = (scriptVariables rest).map (a :: ·) := by
  rw [scriptVariables, h, scriptVariables]
  cases tokens .bare none rest <;> simp [assignments, ha]

theorem scriptVariables_bare {value : Text} (h : IsName name) (hvalue : value.all literal = true)
    (rest : Text) :
    scriptVariables (assignBare name value ++ '\n' :: rest) =
      (scriptVariables rest).map ((name, value) :: ·) := by
  have hword := tokens_word (w := (name ++ ['=']) ++ value) (by
    rw [List.all_append, h.all_literal, hvalue]
    rfl) (by simp) ('\n' :: rest)
  rw [tokens_newline] at hword
  refine scriptVariables_of_word (w := ⟨name ++ '=' :: value, []⟩) ?_ (by simp [h.assignment])
  simpa [assignBare, emit, Piece.word] using hword

theorem scriptVariables_quoted {value : Text} (h : IsName name) (hvalue : Inert value)
    (rest : Text) :
    scriptVariables (assignQuoted name value ++ '\n' :: rest) =
      (scriptVariables rest).map ((name, value) :: ·) := by
  have hword := tokens_word h.all_literal (by simp) ('"' :: (value ++ '"' :: '\n' :: rest))
  have hquote : tokens .bare (some ⟨name ++ ['='], none⟩) ('"' :: (value ++ '"' :: '\n' :: rest)) =
      tokens .double (some (Piece.quote ⟨name ++ ['='], none⟩)) (value ++ '"' :: '\n' :: rest) := by
    simp [tokens, blank]
  rw [hquote, tokens_double hvalue, tokens_newline] at hword
  refine scriptVariables_of_word (w := ⟨name ++ ['='], value⟩) ?_ (h.assignment [] value)
  simpa [assignQuoted, emit, Piece.word, Piece.quote] using hword

theorem words_command {ws : List Text} (hname : name.all literal = true)
    (hne : name ≠ []) (hws : ∀ w ∈ ws, '\'' ∉ w) :
    words (name ++ ' ' :: [' '].intercalate (ws.map singleQuoted)) = some (name :: ws) := by
  have hplain : ∀ us : List Text, plainWords (us.map fun w ↦ .word ⟨[], w⟩) = some us := by
    intro us
    induction us with
    | nil => rfl
    | cons u us ih => simp [plainWords, ih, Word.text]
  have hblank : tokens .bare (some ⟨name, none⟩) (' ' :: [' '].intercalate (ws.map singleQuoted)) =
      some (.word ⟨name, []⟩ :: ws.map fun w ↦ .word ⟨[], w⟩) := by
    simp only [tokens, blank]
    rw [tokens_line hws]
    rfl
  rw [words, tokens_word hname hne, hblank]
  simp [plainWords, hplain, Word.text]

end MicaCore.Shell
