import MicaCore.Systemd.UnitFile

namespace MicaCore.Systemd

open Data

/-- Escapes, specifiers, variables, and where a command without a path is found. -/
structure Manager where
  unescape : Text → Option (Text × ℕ)
  specifier : Char → Option Text
  substitute : Text → List Text
  find : Text → Option Text

inductive Token where
  | word (t : Text)
  | next
  deriving DecidableEq

def lone (cur : Option Text) (t : Text) : Bool :=
  cur.isNone && match t with
    | ';' :: c :: _ => blank c
    | [';'] => true
    | _ => false

def valuesOf (sec key : Text) : Bool → List Item → List Text
  | _, [] => []
  | _, .header name :: items => valuesOf sec key (name == sec) items
  | inside, .assignment k value :: items =>
    if inside && k == key then value :: valuesOf sec key inside items
    else valuesOf sec key inside items
  | inside, .malformed _ :: items => valuesOf sec key inside items

def Calm (t : Text) : Prop := ∀ c ∈ t, lineBreak c = false ∧ c ≠ '\\'

def Line.read : Line → Option Item
  | gap => none
  | header name => some (.header name)
  | assign key value => some (.assignment key (strip value))

theorem Calm.unescaped {t : Text} (h : Calm t) : escaped t = false := by
  rcases List.eq_nil_or_concat' t with rfl | ⟨t, c, rfl⟩
  · rfl
  · simp [escaped_concat, (h c (by simp)).2]

theorem parse_file_of_calm {ls : List Line} (hls : ∀ l ∈ ls, l.Tame)
    (h : ∀ key value, .assign key value ∈ ls → Calm value) :
    parse (file ls) = ls.filterMap Line.read := by
  rw [parse_file hls fun key value hm ↦ ⟨fun c hc ↦ (h key value hm c hc).1, (h key value hm).unescaped⟩]
  refine List.filterMap_congr fun l hl ↦ ?_
  cases l with
  | gap => rfl
  | header name => exact parseLine_text (hls _ hl) (by simp)
  | assign key value => exact parseLine_assign (hls _ hl) value

theorem parse_comment {line : Text} (h : ∀ c ∈ line, lineBreak c = false)
    (hcomment : isComment line = true) (t : Text) : parse (line ++ '\n' :: t) = parse t := by
  rw [parse, splitLines, List.splitOnP_append_cons_of_forall_mem h _ (by decide), ← splitLines]
  simp [logicalLines, hcomment, parse]

theorem valuesOf_append_of_ne {sec key : Text} {inside : Bool} {es : List (Text × Text)}
    (h : ∀ e ∈ es, e.1 ≠ key) (items : List Item) :
    valuesOf sec key inside ((es.map fun e ↦ .assignment e.1 e.2) ++ items) =
      valuesOf sec key inside items := by
  induction es with
  | nil => rfl
  | cons e es ih =>
    obtain ⟨he, hes⟩ := List.forall_mem_cons.1 h
    simp [valuesOf, he, ih hes]

variable (m : Manager)

def unescapeAt (cur : Option Text) (quote : Option Char) (t : Text) : Option (Text × ℕ) :=
  if quote.isNone && lone cur t then some ([';'], 1) else m.unescape t

/-- The word so far, the quote it is in, the escape left to skip, and the rest. -/
def tokens : Option Text → Option Char → ℕ → Text → Option (List Token)
  | cur, quote, n + 1, _ :: rest => tokens cur quote n rest
  | _, _, _ + 1, [] => none
  | _, some _, 0, [] => none
  | cur, none, 0, [] => some (cur.map Token.word).toList
  | cur, quote, 0, c :: rest =>
    if c = '\\' then
      (unescapeAt m cur quote rest).bind fun x ↦ tokens (some (cur.getD [] ++ x.1)) quote x.2 rest
    else match quote with
      | some q =>
        if c = q then tokens cur none 0 rest else tokens (some (cur.getD [] ++ [c])) (some q) 0 rest
      | none =>
        if c = '"' ∨ c = '\'' then tokens (some (cur.getD [])) (some c) 0 rest
        else if blank c then (tokens none none 0 rest).map (cur.toList.map Token.word ++ ·)
        else if lone cur (c :: rest) then (tokens none none 0 rest).map (Token.next :: ·)
        else tokens (some (cur.getD [] ++ [c])) none 0 rest

def printf : Bool → Text → Text
  | false, [] => []
  | true, [] => ['%']
  | false, c :: t => if c = '%' then printf true t else c :: printf false t
  | true, c :: t =>
    (if c = '%' then ['%'] else (m.specifier c).getD ['%', c]) ++ printf false t

def replaceEnv (word : Text) : List Text :=
  if '$' ∈ word then m.substitute word else [word]

structure Command where
  path : Text
  argv : List Text
  deriving DecidableEq

def execFlag (c : Char) : Bool := "@-:+!|".toList.contains c

def wordsOf : List Token → Option (List Text)
  | [] => some []
  | .word t :: rest => (wordsOf rest).map (t :: ·)
  | .next :: _ => none

def execStart (line : Text) : Option Command := do
  let first :: args ← (tokens m none none 0 line).bind wordsOf | none
  let flags := first.takeWhile execFlag
  let named := printf m false (first.dropWhile execFlag)
  let path ← if named.head? = some '/' then some named else m.find named
  let args := args.map (printf m false)
  let args := if ':' ∈ flags then args else args.flatMap (replaceEnv m)
  pure ⟨path, if '@' ∈ flags then args else path :: args⟩

def escapePercent (word : Text) : Text := word.flatMap fun c ↦ if c = '%' then ['%', '%'] else [c]

variable {m}

variable {word : Text}

theorem tokens_inside (h : ∀ c ∈ word, c ≠ '"' ∧ c ≠ '\\') (done rest : Text) :
    tokens m (some done) (some '"') 0 (word ++ '"' :: rest) =
      tokens m (some (done ++ word)) none 0 rest := by
  induction word generalizing done with
  | nil => simp [tokens]
  | cons c word ih =>
    obtain ⟨⟨hquote, hslash⟩, hword⟩ := List.forall_mem_cons.1 h
    simp [tokens, hquote, hslash, ih hword]

theorem tokens_quoted (h : ∀ c ∈ word, c ≠ '"' ∧ c ≠ '\\') (rest : Text) :
    tokens m none none 0 (quoted word ++ rest) = tokens m (some word) none 0 rest := by
  have hinside := tokens_inside (m := m) h [] rest
  simpa [quoted, tokens] using hinside

theorem tokens_line {words : List Text} (h : ∀ w ∈ words, ∀ c ∈ w, c ≠ '"' ∧ c ≠ '\\') :
    tokens m none none 0 ([' '].intercalate (words.map quoted)) = some (words.map Token.word) := by
  induction words with
  | nil => rfl
  | cons w words ih =>
    obtain ⟨hw, hwords⟩ := List.forall_mem_cons.1 h
    cases words with
    | nil =>
      have heq := tokens_quoted (m := m) hw []
      simpa [tokens, List.intercalate] using heq
    | cons v words =>
      have hsep : [' '].intercalate ((w :: v :: words).map quoted) =
          quoted w ++ ' ' :: [' '].intercalate ((v :: words).map quoted) := by
        simp [List.intercalate]
      rw [hsep, tokens_quoted hw]
      simp only [tokens, blank]
      rw [ih hwords]
      simp

theorem wordsOf_map_word (words : List Text) : wordsOf (words.map Token.word) = some words := by
  induction words with
  | nil => rfl
  | cons w words ih => simp [wordsOf, ih]

theorem printf_escapePercent (word : Text) : printf m false (escapePercent word) = word := by
  induction word with
  | nil => rfl
  | cons c word ih =>
    by_cases hc : c = '%'
    · subst hc
      simpa [escapePercent, printf] using ih
    · simpa [escapePercent, printf, hc] using ih

theorem replaceEnv_of_not_mem (h : '$' ∉ word) : replaceEnv m word = [word] := by
  simp [replaceEnv, h]

theorem flatMap_replaceEnv {words : List Text} (h : ∀ w ∈ words, '$' ∉ w) :
    words.flatMap (replaceEnv m) = words := by
  induction words with
  | nil => rfl
  | cons w words ih =>
    obtain ⟨hw, hwords⟩ := List.forall_mem_cons.1 h
    rw [List.flatMap_cons, replaceEnv_of_not_mem hw, ih hwords]
    rfl

theorem mem_escapePercent {c : Char} : c ∈ escapePercent word ↔ c ∈ word := by
  induction word with
  | nil => simp [escapePercent]
  | cons d word ih =>
    have hcons : escapePercent (d :: word) =
        (if d = '%' then ['%', '%'] else [d]) ++ escapePercent word := rfl
    rw [hcons, List.mem_append, ih, List.mem_cons]
    split <;> simp_all

theorem execStart_line {path : Text} {args : List Text}
    (hclean : ∀ w ∈ path :: args, ∀ c ∈ w, c ≠ '"' ∧ c ≠ '\\' ∧ c ≠ '$')
    (hpath : path.head? = some '/') :
    execStart m ([' '].intercalate ((path :: args).map fun w ↦ quoted (escapePercent w))) =
      some ⟨path, path :: args⟩ := by
  have hquiet : ∀ w ∈ (path :: args).map escapePercent, ∀ c ∈ w, c ≠ '"' ∧ c ≠ '\\' := by
    intro w hw c hc
    obtain ⟨v, hv, rfl⟩ := List.mem_map.1 hw
    have hcl := hclean v hv c (mem_escapePercent.1 hc)
    exact ⟨hcl.1, hcl.2.1⟩
  have hread := tokens_line (m := m) hquiet
  have hwords : (tokens m none none 0
      ([' '].intercalate ((path :: args).map fun w ↦ quoted (escapePercent w)))).bind wordsOf =
      some (escapePercent path :: args.map escapePercent) := by
    rw [List.map_map] at hread
    rw [show (fun w ↦ quoted (escapePercent w)) = quoted ∘ escapePercent from rfl, hread,
      Option.bind_some, wordsOf_map_word, List.map_cons]
  obtain ⟨t, rfl⟩ : ∃ t, path = '/' :: t := by
    cases path with
    | nil => simp at hpath
    | cons c t =>
      obtain rfl : c = '/' := by simpa using hpath
      exact ⟨t, rfl⟩
  have hesc : escapePercent ('/' :: t) = '/' :: escapePercent t := rfl
  have hflag : execFlag '/' = false := by decide
  have hname : printf m false ('/' :: escapePercent t) = '/' :: t := by
    rw [← hesc, printf_escapePercent]
  have hargs : (args.map escapePercent).map (printf m false) = args := by
    simp [Function.comp_def, printf_escapePercent]
  have hdollar : ∀ w ∈ args, '$' ∉ w := fun w hw hmem ↦
    (hclean w (List.mem_cons_of_mem _ hw) _ hmem).2.2 rfl
  rw [hesc] at hwords
  simp only [execStart, hwords, Option.bind_eq_bind, Option.bind_some, List.takeWhile_cons, hflag,
    List.dropWhile_cons, Bool.false_eq_true, if_false, hname, hargs, flatMap_replaceEnv hdollar]
  simp

end MicaCore.Systemd
