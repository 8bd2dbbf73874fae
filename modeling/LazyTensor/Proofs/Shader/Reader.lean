import LazyTensor.Shader.Render

/-!
# Reading expressions

A reader for the texts of expressions, by the rules of the shading language. A text is cut into tokens, and the
tokens of an expression are taken one after the other, with a stack of what is still open. A product binds
closer than a sum and a sign closer than both, and operators of the same rank group to the left. The texts of
expressions hold no more parentheses than their trees; where these are enough (`Expr.Readable`), the trees are
read back (`Expr.reads_text`).
-/

namespace LazyTensor.Shader

open List Option

/-! ## Tokens -/

inductive Token where
  | name (text : String)
  | number (value : Nat)
  /-- A number of type `u32`. -/
  | unsigned (value : Nat)
  | operator (op : Operator)
  | equals | less | dot | comma | colon | semicolon | lparen | rparen | lbracket | rbracket | lbrace | rbrace
  | other
deriving DecidableEq

/-- The characters of names and numbers. -/
def isWordChar (c : Char) : Bool := c.isAlphanum || c == '_'

def operatorChars : List Char := ['+', '-', '*', '/', '%', '=', '<', '>', '!', '&', '|', '^', '~']

def isOperatorChar (c : Char) : Bool := operatorChars.contains c

/-- Whether two characters that stand side by side belong to the same token. -/
def joins (c d : Char) : Bool := isWordChar c && isWordChar d || isOperatorChar c && isOperatorChar d

/-- A name does not start with a digit. -/
def isName (run : List Char) : Bool := run.all isWordChar && run.head?.any (!·.isDigit)

/-- The token of a run that is no word. Operators of several characters do not occur in kernels. -/
def Token.ofSymbol : List Char → Token
  | ['+'] => .operator .add
  | ['-'] => .operator .sub
  | ['*'] => .operator .mul
  | ['/'] => .operator .div
  | ['%'] => .operator .rem
  | ['='] => .equals
  | ['<'] => .less
  | ['.'] => .dot
  | [','] => .comma
  | [':'] => .colon
  | [';'] => .semicolon
  | ['('] => .lparen
  | [')'] => .rparen
  | ['['] => .lbracket
  | [']'] => .rbracket
  | ['\x7b'] => .lbrace
  | ['\x7d'] => .rbrace
  | _ => .other

def Token.ofRun (run : List Char) : Token :=
  if isName run then .name (String.ofList run)
  else if run.all Char.isDigit then .number (Nat.ofDigitChars 10 run 0)
  else if run.getLast? = some 'u' ∧ run.dropLast.all Char.isDigit then .unsigned (Nat.ofDigitChars 10 run.dropLast 0)
  else .ofSymbol run

/-- The runs of a text with one more character before it, which is put into the first run or is one of its own. -/
def consRuns (c : Char) : List (List Char) → List (List Char)
  | (d :: run) :: runs => if joins c d then (c :: d :: run) :: runs else [c] :: (d :: run) :: runs
  | runs => [c] :: runs

/-- The text cut between any two neighbours that do not belong to the same token. -/
def runs (text : List Char) : List (List Char) := text.foldr consRuns []

/-- The tokens of a text. Blanks only keep tokens apart. -/
def lex (text : List Char) : List Token :=
  ((runs text).filter (!·.all Char.isWhitespace)).map Token.ofRun

theorem runs_cons (c : Char) (text : List Char) : runs (c :: text) = consRuns c (runs text) := rfl

theorem exists_runs_cons (c : Char) (text : List Char) : ∃ run rest, runs (c :: text) = (c :: run) :: rest := by
  rw [runs_cons]
  unfold consRuns
  split
  · split
    · exact ⟨_, _, rfl⟩
    · exact ⟨_, _, rfl⟩
  · exact ⟨_, _, rfl⟩

variable {a b : List Char}

theorem runs_append (h : ∀ c ∈ a.getLast?, ∀ d ∈ b.head?, joins c d = false) : runs (a ++ b) = runs a ++ runs b := by
  induction a with
  | nil => rfl
  | cons c a ih =>
    cases a with
    | nil =>
      -- the border is right after this character
      show consRuns c (runs b) = [c] :: runs b
      cases b with
      | nil => rfl
      | cons d b =>
        obtain ⟨run, rest, hruns⟩ := exists_runs_cons d b
        have hjoins : joins c d = false := h c (by simp) d (by simp)
        simp [hruns, consRuns, hjoins]
    | cons c' a =>
      have htail : runs (c' :: a ++ b) = runs (c' :: a) ++ runs b := by
        apply ih
        simpa [getLast?_cons_cons] using h
      obtain ⟨run, rest, hruns⟩ := exists_runs_cons c' a
      rw [cons_append, runs_cons, runs_cons, htail, hruns]
      simp only [cons_append, consRuns]
      split <;> rfl

variable {run : List Char}

theorem runs_of_pairwise (hne : run ≠ []) (h : run.Pairwise fun c d => joins c d = true) : runs run = [run] := by
  induction run with
  | nil => exact absurd rfl hne
  | cons c run ih =>
    cases run with
    | nil => rfl
    | cons d run =>
      rw [pairwise_cons] at h
      rw [runs_cons, ih (by simp) h.2, consRuns, if_pos (h.1 d (by simp))]

theorem lex_append (h : ∀ c ∈ a.getLast?, ∀ d ∈ b.head?, joins c d = false) : lex (a ++ b) = lex a ++ lex b := by
  rw [lex, runs_append h, filter_append, map_append]
  rfl

variable {c : Char}

theorem lex_append_cons (hword : isWordChar c = false) (hop : isOperatorChar c = false) :
    lex (a ++ c :: b) = lex a ++ (lex [c] ++ lex b) := by
  have hsingle : lex (c :: b) = lex [c] ++ lex b := by
    apply lex_append (a := [c])
    simp [joins, hword, hop]
  rw [lex_append, hsingle]
  simp [joins, hword, hop]

theorem lex_run (hne : run ≠ []) (hblank : run.all Char.isWhitespace = false)
    (h : run.Pairwise fun c d => joins c d = true) : lex run = [Token.ofRun run] := by
  rw [lex, runs_of_pairwise hne h]
  simp [hblank]

theorem lex_word (hne : run ≠ []) (h : ∀ c ∈ run, isWordChar c = true) : lex run = [Token.ofRun run] := by
  apply lex_run hne
  · obtain ⟨c, hc⟩ := exists_mem_of_ne_nil run hne
    have hblank : c.isWhitespace = false := by
      rw [Bool.eq_false_iff]
      intro hc'
      simp only [Char.isWhitespace, Bool.or_eq_true, decide_eq_true_eq] at hc'
      have hword := h c hc
      rcases hc' with ((rfl | rfl) | rfl) | rfl <;> exact absurd hword (by decide)
    rw [Bool.eq_false_iff]
    intro hall
    rw [List.all_eq_true.mp hall c hc] at hblank
    cases hblank
  · apply pairwise_of_forall_mem_list
    intro c hc d hd
    simp [joins, h c hc, h d hd]

theorem isWordChar_of_isName (h : isName run = true) : ∀ c ∈ run, isWordChar c = true := by
  simp only [isName, Bool.and_eq_true, List.all_eq_true] at h
  exact h.1

theorem ne_nil_of_isName (h : isName run = true) : run ≠ [] := by
  rintro rfl
  cases h

theorem lex_name {w : String} (h : isName w.toList = true) : lex w.toList = [.name w] := by
  rw [lex_word (ne_nil_of_isName h) (isWordChar_of_isName h), Token.ofRun, if_pos h, String.ofList_toList]

theorem toList_toString (n : Nat) : (toString n).toList = Nat.toDigits 10 n := Nat.toList_repr

theorem isDigit_of_mem_toString {n : Nat} (hc : c ∈ (toString n).toList) : c.isDigit = true := by
  rw [toList_toString] at hc
  exact Nat.isDigit_of_mem_toDigits (by omega) (by omega) hc

theorem isWordChar_of_mem_toString {n : Nat} (hc : c ∈ (toString n).toList) : isWordChar c = true := by
  simp [isWordChar, Char.isAlphanum, isDigit_of_mem_toString hc]

theorem toString_ne_nil (n : Nat) : (toString n).toList ≠ [] := by
  rw [toList_toString]
  exact Nat.toDigits_ne_nil

theorem all_isDigit_toString (n : Nat) : (toString n).toList.all Char.isDigit = true :=
  List.all_eq_true.mpr fun _ hc => isDigit_of_mem_toString hc

theorem not_isName_toString_append (n : Nat) (rest : List Char) : isName ((toString n).toList ++ rest) = false := by
  obtain ⟨c, cs, hcs⟩ := exists_cons_of_ne_nil (toString_ne_nil n)
  have hc : c.isDigit = true := isDigit_of_mem_toString (hcs ▸ mem_cons_self)
  rw [isName, hcs]
  simp [hc]

theorem lex_number (n : Nat) : lex (toString n).toList = [.number n] := by
  have hname := not_isName_toString_append n []
  rw [append_nil] at hname
  rw [lex_word (toString_ne_nil n) fun c hc => isWordChar_of_mem_toString hc, Token.ofRun, hname,
    all_isDigit_toString, toList_toString, Nat.ofDigitChars_ten_toDigits]
  rfl

theorem lex_unsigned (n : Nat) : lex ((toString n).toList ++ ['u']) = [.unsigned n] := by
  have hword : ∀ c ∈ (toString n).toList ++ ['u'], isWordChar c = true := by
    intro c hc
    rcases mem_append.mp hc with hc | hc
    · exact isWordChar_of_mem_toString hc
    · obtain rfl := mem_singleton.mp hc
      decide
  have hmark : ((toString n).toList ++ ['u']).all Char.isDigit = false := by
    rw [all_append, show ['u'].all Char.isDigit = false by decide, Bool.and_false]
  rw [lex_word (by simp) hword, Token.ofRun, not_isName_toString_append, hmark, getLast?_concat,
    dropLast_concat, all_isDigit_toString, toList_toString, Nat.ofDigitChars_ten_toDigits]
  rfl

/-! ## Expressions -/

/-- What is open to the left of an operand. -/
inductive Frame where
  | sign
  | operand (op : Operator) (a : Expr)
  | group
  | index (buffer : String)
  | call (function : String) (args : List Expr)
  /-- The block of parameters, before a field of it. -/
  | field

/-- The place of a reader in an expression: what is open, and the operand before the place, if there is one. -/
structure Place where
  frames : List Frame
  operand : Option Expr

/-- How close an operator binds. -/
def Operator.rank : Operator → Nat
  | .add | .sub => 0
  | .mul | .div | .rem => 1

/-- Applies the open operators that bind as close as the rank or closer. -/
def settle (rank : Nat) : List Frame → Expr → List Frame × Expr
  | .sign :: frames, e => settle rank frames (.neg e)
  | .operand op a :: frames, e =>
    if rank ≤ op.rank then settle rank frames (.binary op a e) else (.operand op a :: frames, e)
  | frames, e => (frames, e)

def scalarTypes : List ScalarType := [.f32, .i32, .u32]

def functions : List Function := [.abs, .sqrt, .exp, .log, .sin, .cos, .tanh]

/-- The expression of a function or a type applied to arguments. -/
def call? (function : String) : List Expr → Option Expr
  | [a] => ((scalarTypes.find? (·.text == function)).map (.convert · a)).or
      ((functions.find? (·.text == function)).map (.apply · a))
  | [a, b] => ([Function₂.max, .min].find? (·.text == function)).map (.apply₂ · a b)
  | [a, b, c] => if function = "fma" then some (.fma a b c) else none
  | _ => none

/-- The place after an argument that another one follows. -/
def Place.ofComma? : List Frame × Expr → Option Place
  | (.call f args :: frames, e) => some ⟨.call f (args ++ [e]) :: frames, none⟩
  | _ => none

/-- The place after a group or a call. -/
def Place.ofParen? : List Frame × Expr → Option Place
  | (.group :: frames, e) => some ⟨frames, some (.paren e)⟩
  | (.call f args :: frames, e) => (call? f (args ++ [e])).map fun e => ⟨frames, some e⟩
  | _ => none

/-- The place after an index. -/
def Place.ofBracket? : List Frame × Expr → Option Place
  | (.index b :: frames, e) => some ⟨frames, some (.element b e)⟩
  | _ => none

/-- The place after a name. -/
def Place.ofName (w : String) : List Frame → Place
  | .field :: frames => ⟨frames, some (.param w)⟩
  | frames => ⟨frames, some (.var w)⟩

/-- The place after one more token. -/
def Place.next? : Place → Token → Option Place
  | ⟨frames, none⟩, .name w => some (ofName w frames)
  | ⟨frames, none⟩, .number n => some ⟨frames, some (.int n)⟩
  | ⟨frames, none⟩, .unsigned n => some ⟨frames, some (.unsigned n)⟩
  | ⟨frames, none⟩, .operator .sub => some ⟨.sign :: frames, none⟩
  | ⟨frames, none⟩, .lparen => some ⟨.group :: frames, none⟩
  | ⟨frames, some (.var w)⟩, .lparen => some ⟨.call w [] :: frames, none⟩
  | ⟨frames, some (.var w)⟩, .lbracket => some ⟨.index w :: frames, none⟩
  | ⟨frames, some (.var w)⟩, .dot => if w = "params" then some ⟨.field :: frames, none⟩ else none
  | ⟨frames, some e⟩, .operator op =>
    let (frames, e) := settle op.rank frames e
    some ⟨.operand op e :: frames, none⟩
  | ⟨frames, some e⟩, .comma => ofComma? (settle 0 frames e)
  | ⟨frames, some e⟩, .rparen => ofParen? (settle 0 frames e)
  | ⟨frames, some e⟩, .rbracket => ofBracket? (settle 0 frames e)
  | _, _ => none

def Place.after? (place : Place) (tokens : List Token) : Option Place := tokens.foldlM Place.next? place

def readExpr (tokens : List Token) : Option Expr :=
  (Place.after? ⟨[], none⟩ tokens).bind fun place => place.operand.bind fun e =>
    match settle 0 place.frames e with
    | ([], e) => some e
    | _ => none

/-! ## What is read -/

/-- The tokens that divide and end statements. -/
def Token.isMark : Token → Bool
  | .equals | .less | .colon | .semicolon | .lbrace | .rbrace => true
  | _ => false

/-- An operand of the rank can stand after what is open. The rank of a sign is 2, and that of what is closed by
itself is 3. -/
def Opens (rank : Nat) : List Frame → Prop
  | .sign :: _ => 2 < rank
  | .operand op _ :: _ => op.rank < rank
  | .field :: _ => False
  | _ => True

/-- The tokens are read as the expression, after anything after which an operand of the rank can stand. The
operators of the expression may be left open, but only until something follows that does not bind closer. -/
def Reads (rank : Nat) (tokens : List Token) (e : Expr) : Prop :=
  ∀ frames, Opens rank frames → ∃ frames' e', Place.after? ⟨frames, none⟩ tokens = some ⟨frames', some e'⟩ ∧
    ∀ r ≤ rank, settle r frames' e' = settle r frames e

section Reads

variable {rank : Nat} {tokens tokens' tokens'' : List Token} {frames : List Frame} {a b c e : Expr}

theorem after?_append (place : Place) (tokens tokens' : List Token) :
    place.after? (tokens ++ tokens') = (place.after? tokens).bind fun place => place.after? tokens' := by
  simp [Place.after?]

theorem after?_cons (place : Place) (t : Token) (tokens : List Token) :
    place.after? (t :: tokens) = (place.next? t).bind fun place => place.after? tokens := by
  simp [Place.after?]

theorem settle_of_opens {r : Nat} (hr : r ≤ 2) (h : Opens r frames) (e : Expr) : settle r frames e = (frames, e) := by
  unfold Opens at h
  split at h
  · omega
  · rw [settle, if_neg (by omega)]
  · exact h.elim
  · rename_i hsign hoperand hfield
    cases frames with
    | nil => rfl
    | cons frame frames =>
      cases frame with
      | sign => exact (hsign frames rfl).elim
      | operand op a => exact (hoperand op a frames rfl).elim
      | group => rfl
      | index buffer => rfl
      | call f args => rfl
      | field => exact (hfield frames rfl).elim

theorem ofName_of_opens (h : Opens rank frames) (w : String) : Place.ofName w frames = ⟨frames, some (.var w)⟩ := by
  unfold Place.ofName
  split
  · exact h.elim
  · rfl

theorem reads_of_after?
    (h : ∀ frames, Opens rank frames → Place.after? ⟨frames, none⟩ tokens = some ⟨frames, some e⟩) :
    Reads rank tokens e :=
  fun frames hopens => ⟨frames, e, h frames hopens, fun _ _ => rfl⟩

theorem after?_name (hopens : Opens rank frames) (w : String) (tokens : List Token) :
    Place.after? ⟨frames, none⟩ (.name w :: tokens) = Place.after? ⟨frames, some (.var w)⟩ tokens := by
  rw [← ofName_of_opens hopens]
  rfl

theorem reads_name (w : String) : Reads rank [.name w] (.var w) :=
  reads_of_after? fun _ hopens => after?_name hopens w []

theorem reads_number (n : Nat) : Reads rank [.number n] (.int n) := reads_of_after? fun _ _ => rfl

theorem reads_unsigned (n : Nat) : Reads rank [.unsigned n] (.unsigned n) := reads_of_after? fun _ _ => rfl

theorem reads_param (field : String) : Reads rank [.name "params", .dot, .name field] (.param field) :=
  reads_of_after? fun _ hopens => after?_name hopens "params" [.dot, .name field]

theorem Reads.neg (h : Reads 3 tokens e) (hrank : rank ≤ 2) : Reads rank (.operator .sub :: tokens) (.neg e) := by
  intro frames _
  obtain ⟨frames', e', hafter, hsettle⟩ := h (.sign :: frames) (by simp [Opens])
  refine ⟨frames', e', ?_, fun r hr => hsettle r (by omega)⟩
  exact hafter

theorem Reads.binary {op : Operator} (ha : Reads op.rank tokens a) (hb : Reads (op.rank + 1) tokens' b)
    (hrank : rank ≤ op.rank) : Reads rank (tokens ++ .operator op :: tokens') (.binary op a b) := by
  intro frames hopens
  have hop : op.rank ≤ 1 := by cases op <;> decide
  have hopens' : Opens op.rank frames := by
    unfold Opens at hopens ⊢
    split at hopens <;> omega
  obtain ⟨framesA, a', hafterA, hsettleA⟩ := ha frames hopens'
  have hsettled : settle op.rank framesA a' = (frames, a) :=
    (hsettleA _ (Nat.le_refl _)).trans (settle_of_opens (by omega) hopens' a)
  have hnext : Place.next? ⟨framesA, some a'⟩ (.operator op) = some ⟨.operand op a :: frames, none⟩ := by
    cases a' <;> simp [Place.next?, hsettled]
  obtain ⟨framesB, b', hafterB, hsettleB⟩ := hb (.operand op a :: frames) (by simp [Opens])
  refine ⟨framesB, b', ?_, fun r hr => ?_⟩
  · rwa [after?_append, hafterA, bind_some, after?_cons, hnext]
  · rw [hsettleB r (by omega), settle, if_pos (by omega)]

theorem Reads.after?_enclosed (h : Reads 0 tokens e) (frames : List Frame) (hopens : Opens 0 frames) {t : Token}
    {next : List Frame × Expr → Option Place}
    (hnext : ∀ frames e, Place.next? ⟨frames, some e⟩ t = next (settle 0 frames e)) :
    Place.after? ⟨frames, none⟩ (tokens ++ [t]) = next (frames, e) := by
  obtain ⟨frames', e', hafter, hsettle⟩ := h frames hopens
  rw [after?_append, hafter, bind_some, after?_cons, hnext, hsettle 0 (Nat.le_refl _),
    settle_of_opens (by omega) hopens]
  simp [Place.after?]

theorem next?_comma (frames : List Frame) (e : Expr) :
    Place.next? ⟨frames, some e⟩ .comma = Place.ofComma? (settle 0 frames e) := by
  cases e <;> rfl

theorem next?_rparen (frames : List Frame) (e : Expr) :
    Place.next? ⟨frames, some e⟩ .rparen = Place.ofParen? (settle 0 frames e) := by
  cases e <;> rfl

theorem next?_rbracket (frames : List Frame) (e : Expr) :
    Place.next? ⟨frames, some e⟩ .rbracket = Place.ofBracket? (settle 0 frames e) := by
  cases e <;> rfl

theorem Reads.paren (h : Reads 0 tokens e) : Reads rank (.lparen :: tokens ++ [.rparen]) (.paren e) := by
  apply reads_of_after?
  intro frames _
  exact h.after?_enclosed (.group :: frames) trivial next?_rparen

theorem Reads.element (h : Reads 0 tokens e) (buffer : String) :
    Reads rank (.name buffer :: .lbracket :: tokens ++ [.rbracket]) (.element buffer e) := by
  apply reads_of_after?
  intro frames hopens
  rw [cons_append, after?_name hopens]
  exact h.after?_enclosed (.index buffer :: frames) trivial next?_rbracket

theorem after?_args {f : String} (args : List (List Token × Expr)) (hne : args ≠ [])
    (h : ∀ arg ∈ args, Reads 0 arg.1 arg.2) (done : List Expr) (frames : List Frame) :
    Place.after? ⟨.call f done :: frames, none⟩ ([.comma].intercalate (args.map (·.1)) ++ [.rparen]) =
      (call? f (done ++ args.map (·.2))).map fun e => ⟨frames, some e⟩ := by
  induction args generalizing done with
  | nil => exact absurd rfl hne
  | cons arg args ih =>
    have harg := h arg (by simp)
    cases args with
    | nil => simpa [Place.ofParen?] using harg.after?_enclosed (.call f done :: frames) trivial next?_rparen
    | cons arg' args =>
      have hcomma := harg.after?_enclosed (.call f done :: frames) trivial next?_comma
      have hrest := ih (by simp) (fun x hx => h x (by simp [hx])) (done ++ [arg.2])
      rw [map_cons, map_cons, intercalate_cons_cons, append_assoc, after?_append,
        hcomma]
      simpa [Place.ofComma?] using hrest

theorem reads_call {f : String} {args : List (List Token × Expr)} (hne : args ≠ [])
    (h : ∀ arg ∈ args, Reads 0 arg.1 arg.2) (hcall : call? f (args.map (·.2)) = some e) :
    Reads rank (.name f :: .lparen :: [.comma].intercalate (args.map (·.1)) ++ [.rparen]) e := by
  apply reads_of_after?
  intro frames hopens
  have hargs := after?_args (f := f) args hne h [] frames
  rw [nil_append, hcall] at hargs
  rwa [cons_append, after?_name hopens]

theorem Reads.readExpr_eq (h : Reads rank tokens e) : readExpr tokens = some e := by
  obtain ⟨frames, e', hafter, hsettle⟩ := h [] trivial
  simp only [readExpr, hafter, bind_some, hsettle 0 (Nat.zero_le _), settle]

theorem next?_of_mark {t : Token} (ht : t.isMark = true) (place : Place) : place.next? t = none := by
  unfold Place.next?
  split <;> first | rfl | cases ht

theorem Reads.not_isMark (h : Reads rank tokens e) : ∀ t ∈ tokens, t.isMark = false := by
  intro t hmem
  rw [Bool.eq_false_iff]
  intro ht
  obtain ⟨before, after, rfl⟩ := append_of_mem hmem
  obtain ⟨frames, e', hafter, -⟩ := h [] trivial
  rw [after?_append] at hafter
  obtain ⟨place, -, hafter⟩ := bind_eq_some_iff.mp hafter
  rw [after?_cons, next?_of_mark ht] at hafter
  cases hafter

end Reads

/-! ## Texts of expressions -/

/-- The text of the expression is read as the expression where an operand of the rank can stand. -/
def Expr.Readable : (rank : Nat) → Expr → Prop
  | _, .var w => isName w.toList = true
  | _, .int value | _, .unsigned value => 0 ≤ value
  | _, .param field => isName field.toList = true
  | _, .element buffer index => isName buffer.toList = true ∧ index.Readable 0
  | _, .convert type e => type ∈ scalarTypes ∧ e.Readable 0
  | rank, .neg e => rank ≤ 2 ∧ e.Readable 3
  | _, .apply _ e => e.Readable 0
  | _, .apply₂ _ a b => a.Readable 0 ∧ b.Readable 0
  | _, .fma a b c => a.Readable 0 ∧ b.Readable 0 ∧ c.Readable 0
  | rank, .binary op a b => rank ≤ op.rank ∧ a.Readable op.rank ∧ b.Readable (op.rank + 1)
  | _, .paren e => e.Readable 0

/-- A call as it is written. -/
def callText (f : String) (args : List String) : List Char :=
  f.toList ++ '(' :: ((", ".intercalate args).toList ++ [')'])

theorem lex_args (args : List String) :
    lex (", ".intercalate args).toList = [.comma].intercalate (args.map fun arg => lex arg.toList) := by
  induction args with
  | nil => rfl
  | cons arg args ih =>
    cases args with
    | nil => simp
    | cons arg' args =>
      have htext : (", ".intercalate (arg :: arg' :: args)).toList =
          arg.toList ++ ',' :: ([] ++ ' ' :: (", ".intercalate (arg' :: args)).toList) := by
        simp
      rw [htext, lex_append_cons rfl rfl, lex_append_cons rfl rfl, ih]
      rfl

theorem reads_callText {rank : Nat} (f : String) (args : List Expr) {e : Expr} (hf : isName f.toList = true)
    (hne : args ≠ []) (h : ∀ a ∈ args, Reads 0 (lex a.text.toList) a) (hcall : call? f args = some e) {text : List Char}
    (htext : text = callText f (args.map Expr.text)) : Reads rank (lex text) e := by
  have hlex : lex text = .name f :: .lparen ::
      [.comma].intercalate ((args.map fun a => (lex a.text.toList, a)).map (·.1)) ++ [.rparen] := by
    rw [htext, callText, lex_append_cons rfl rfl, lex_append_cons rfl rfl, lex_name hf, lex_args, List.map_map,
      List.map_map]
    rfl
  rw [hlex]
  apply reads_call
  · simpa using hne
  · intro arg harg
    obtain ⟨a, ha, rfl⟩ := List.mem_map.mp harg
    exact h a ha
  · simpa [Function.comp_def] using hcall

theorem isName_scalarType {type : ScalarType} (h : type ∈ scalarTypes) : isName type.text.toList = true := by
  simp only [scalarTypes, mem_cons, not_mem_nil, or_false] at h
  rcases h with rfl | rfl | rfl <;> rfl

theorem head?_append_left (hne : a ≠ []) (b : List Char) : (a ++ b).head? = a.head? := by
  cases a with
  | nil => exact absurd rfl hne
  | cons c a => rfl

theorem not_isOperatorChar_head (hne : run ≠ []) (h : ∀ c ∈ run, isWordChar c = true) (rest : List Char) :
    ∀ c ∈ (run ++ rest).head?, isOperatorChar c = false := by
  have hdisjoint : operatorChars.all (fun c => !isWordChar c) = true := by decide
  intro c hc
  rw [head?_append_left hne] at hc
  rw [Bool.eq_false_iff]
  intro hop
  have hword := List.all_eq_true.mp hdisjoint c (by simpa [isOperatorChar] using hop)
  rw [h c (mem_of_mem_head? hc)] at hword
  cases hword

theorem toList_text_unsigned (n : Nat) : (Expr.unsigned n).text.toList = (toString n).toList ++ ['u'] := by
  show (toString n ++ "u").toList = _
  rw [String.toList_append]
  rfl

theorem Expr.Readable.head {e : Expr} (h : e.Readable 3) : ∀ c ∈ e.text.toList.head?, isOperatorChar c = false := by
  have hname : ∀ (w : String) (rest : List Char), isName w.toList = true → e.text.toList = w.toList ++ rest →
      ∀ c ∈ e.text.toList.head?, isOperatorChar c = false := by
    intro w rest hw htext
    rw [htext]
    exact not_isOperatorChar_head (ne_nil_of_isName hw) (isWordChar_of_isName hw) rest
  have hcall : ∀ (f : String) (args : List String), isName f.toList = true → e.text.toList = callText f args →
      ∀ c ∈ e.text.toList.head?, isOperatorChar c = false := fun f args => hname f _
  -- what stands without parentheses after a sign starts with a name or a digit
  cases e with
  | var w => exact hname w [] h (by simp [text])
  | int value =>
    obtain ⟨n, rfl⟩ := Int.eq_ofNat_of_zero_le h
    show ∀ c ∈ (toString n).toList.head?, _
    rw [← append_nil (toString n).toList]
    exact not_isOperatorChar_head (toString_ne_nil n) (fun c => isWordChar_of_mem_toString) []
  | unsigned value =>
    obtain ⟨n, rfl⟩ := Int.eq_ofNat_of_zero_le h
    rw [toList_text_unsigned]
    exact not_isOperatorChar_head (toString_ne_nil n) (fun c => isWordChar_of_mem_toString) ['u']
  | param field => exact hname "params" ('.' :: field.toList) rfl (by simp [text, toString])
  | element buffer index => exact hname buffer ('[' :: (index.text.toList ++ [']'])) h.1 (by simp [text, toString])
  | convert type e => exact hcall type.text [e.text] (isName_scalarType h.1) (by simp [callText, text, toString])
  | neg e => exact absurd h.1 (by decide)
  | apply f e => exact hcall f.text [e.text] (by cases f <;> rfl) (by simp [callText, text, toString])
  | apply₂ f a b => exact hcall f.text [a.text, b.text] (by cases f <;> rfl) (by simp [callText, text, toString])
  | fma a b c => exact hcall "fma" [a.text, b.text, c.text] rfl (by simp [callText, text, toString])
  | binary op a b => exact absurd h.1 (by cases op <;> decide)
  | paren e =>
    simp only [text, toString]
    simp
    decide

theorem lex_element {buffer : String} (h : isName buffer.toList = true) (index : Expr) :
    lex (Expr.element buffer index).text.toList =
      .name buffer :: .lbracket :: lex index.text.toList ++ [.rbracket] := by
  have htext : (Expr.element buffer index).text.toList = buffer.toList ++ '[' :: (index.text.toList ++ ']' :: []) := by
    simp [Expr.text, toString]
  rw [htext, lex_append_cons rfl rfl, lex_append_cons rfl rfl, lex_name h]
  rfl

/-- An expression is read back from its text. -/
theorem Expr.reads_text {rank : Nat} {e : Expr} (h : e.Readable rank) : Reads rank (lex e.text.toList) e := by
  induction e generalizing rank with
  | var w =>
    rw [text, lex_name h]
    exact reads_name w
  | int value =>
    obtain ⟨n, rfl⟩ := Int.eq_ofNat_of_zero_le h
    show Reads rank (lex (toString n).toList) _
    rw [lex_number]
    exact reads_number n
  | unsigned value =>
    obtain ⟨n, rfl⟩ := Int.eq_ofNat_of_zero_le h
    rw [toList_text_unsigned, lex_unsigned]
    exact reads_unsigned n
  | param field =>
    have htext : (param field).text.toList = "params".toList ++ '.' :: field.toList := by
      simp [text, toString]
    rw [htext, lex_append_cons rfl rfl, lex_name h]
    exact reads_param field
  | element buffer index ih =>
    rw [lex_element h.1]
    exact (ih h.2).element buffer
  | convert type e ih =>
    obtain ⟨htype, he⟩ := h
    apply reads_callText type.text [e] (isName_scalarType htype) (by simp) (by simpa using ih he)
    · simp only [scalarTypes, mem_cons, not_mem_nil, or_false] at htype
      rcases htype with rfl | rfl | rfl <;> rfl
    · simp [callText, text, toString]
  | neg e ih =>
    have htext : (neg e).text.toList = ['-'] ++ e.text.toList := by
      simp [text, toString]
    -- the sign does not join what follows it to a longer token
    have hjoin : ∀ c ∈ ['-'].getLast?, ∀ d ∈ e.text.toList.head?, joins c d = false := by
      intro c hc d hd
      obtain rfl : '-' = c := by simpa using hc
      rw [joins, h.2.head d hd, show isWordChar '-' = false by decide, Bool.false_and, Bool.and_false, Bool.false_or]
    rw [htext, lex_append hjoin]
    exact (ih h.2).neg h.1
  | apply f e ih =>
    apply reads_callText f.text [e] _ (by simp) (by simpa using ih h)
    · cases f <;> rfl
    · simp [callText, text, toString]
    · cases f <;> rfl
  | apply₂ f a b iha ihb =>
    apply reads_callText f.text [a, b] _ (by simp) (by simpa using ⟨iha h.1, ihb h.2⟩)
    · cases f <;> rfl
    · simp [callText, text, toString]
    · cases f <;> rfl
  | fma a b c iha ihb ihc =>
    apply reads_callText "fma" [a, b, c] rfl (by simp) (by simpa using ⟨iha h.1, ihb h.2.1, ihc h.2.2⟩) rfl
    simp [callText, text, toString]
  | binary op a b iha ihb =>
    have htext : (binary op a b).text.toList = a.text.toList ++ ' ' :: (op.text.toList ++ ' ' :: b.text.toList) := by
      simp [text, toString]
    have hop : lex op.text.toList = [.operator op] := by cases op <;> rfl
    rw [htext, lex_append_cons rfl rfl, lex_append_cons rfl rfl, hop]
    exact (iha h.2.1).binary (ihb h.2.2) h.1
  | paren e ih =>
    have htext : (paren e).text.toList = [] ++ '(' :: (e.text.toList ++ ')' :: []) := by
      simp [text, toString]
    rw [htext, lex_append_cons rfl rfl, lex_append_cons rfl rfl]
    exact (ih h).paren

end LazyTensor.Shader
