import LazyTensor.Proofs.Shader.Reader

/-!
# Reading statements

A reader for the bodies of kernels. The tokens of a text are cut into pieces, each with the token that ends it: a
semicolon or a brace. A statement is one piece, and a loop is five of them: where its counter starts, how long it goes
on, how the counter is moved on, the one statement that is repeated, and the closing brace.

The text of a statement is the texts of its pieces (`Stmt.lex_text`), and reading stops at each of them. So the
statements of a kernel are read back from its text (`readStmts_text`).
-/

namespace LazyTensor.Shader

open List Option

/-! ## Pieces -/

/-- The tokens that end a piece. -/
def Token.isStop : Token → Bool
  | .semicolon | .lbrace | .rbrace => true
  | _ => false

/-- Tokens and the one that ends them. -/
structure Piece where
  tokens : List Token
  stop : Token

namespace Piece

def all (p : Piece) : List Token := p.tokens ++ [p.stop]

/-- The piece is ended by its last token, and by no other one. -/
structure IsCut (p : Piece) : Prop where
  stop : p.stop.isStop = true
  tokens : ∀ t ∈ p.tokens, t.isStop = false

end Piece

/-- The pieces of some tokens, given those of the first one so far. Every piece is ended. -/
def pieces? : (first : List Token) → List Token → Option (List Piece)
  | [], [] => some []
  | _ :: _, [] => none
  | first, t :: tokens =>
    if t.isStop then (pieces? [] tokens).map (⟨first, t⟩ :: ·) else pieces? (first ++ [t]) tokens

variable {tokens : List Token}

theorem pieces?_append (h : ∀ t ∈ tokens, t.isStop = false) {stop : Token} (hstop : stop.isStop = true)
    (first rest : List Token) :
    pieces? first (tokens ++ stop :: rest) = (pieces? [] rest).map (⟨first ++ tokens, stop⟩ :: ·) := by
  induction tokens generalizing first with
  | nil => simp [pieces?, hstop]
  | cons t tokens ih =>
    have ht : t.isStop = false := h t (by simp)
    rw [cons_append, pieces?, ht, if_neg Bool.false_ne_true, ih fun t ht => h t (.tail _ ht)]
    simp

theorem pieces?_flatMap {pieces : List Piece} (h : ∀ p ∈ pieces, p.IsCut) (rest : List Token) :
    pieces? [] (pieces.flatMap Piece.all ++ rest) = (pieces? [] rest).map (pieces ++ ·) := by
  induction pieces with
  | nil => simp
  | cons p pieces ih =>
    obtain ⟨hstop, htokens⟩ := h p (by simp)
    rw [flatMap_cons, Piece.all, append_assoc, append_assoc, singleton_append,
      pieces?_append htokens hstop, ih fun p hp => h p (.tail _ hp), Option.map_map]
    rfl

/-! ## Statements -/

/-- The statement that writes an element, from tokens with the place on their left. -/
def readStore (tokens : List Token) : Option Stmt :=
  match readExpr (tokens.takeWhile (· ≠ .equals)), tokens.dropWhile (· ≠ .equals) with
  | some (.element buffer index), .equals :: tokens => (readExpr tokens).map (.store buffer index)
  | _, _ => none

/-- The statement that the tokens are: it binds a name, declares or assigns a variable, or writes an element. -/
def readStmt : List Token → Option Stmt
  | .name "let" :: .name w :: .equals :: tokens => (readExpr tokens).map (.bind w)
  | .name "var" :: .name w :: .equals :: tokens => (readExpr tokens).map (.declare w none)
  | .name "var" :: .name w :: .colon :: .name type :: .equals :: tokens =>
    (scalarTypes.find? (·.text == type)).bind fun type => (readExpr tokens).map (.declare w (some type))
  | .name w :: .equals :: tokens => (readExpr tokens).map (.assign w)
  | tokens => readStore tokens

/-- The counter and the bound of a loop. It counts from zero in steps of one. -/
def readCounter : (start test step : List Token) → Option (String × Expr)
  | [.name "var", .name w, .colon, .name "u32", .equals, .unsigned 0], .name w' :: .less :: bound,
    [.name target, .equals, .name last, .operator .add, .unsigned 1, .rparen] =>
    if w' = w ∧ target = w ∧ last = w then (readExpr bound).map (w, ·) else none
  | _, _, _ => none

/-- The statements that the pieces are. -/
def readPieces : List Piece → Option (List Stmt)
  | [] => some []
  | ⟨.name "for" :: .lparen :: start, .semicolon⟩ :: ⟨test, .semicolon⟩ :: ⟨step, .lbrace⟩ :: ⟨body, .semicolon⟩ ::
      ⟨[], .rbrace⟩ :: pieces => do
    let (counter, bound) ← readCounter start test step
    return .loop counter bound (← readStmt body) :: (← readPieces pieces)
  | ⟨tokens, .semicolon⟩ :: pieces => do return (← readStmt tokens) :: (← readPieces pieces)
  | _ => none

/-- The statements that a text is. -/
def readStmts (text : String) : Option (List Stmt) := (pieces? [] (lex text.toList)).bind readPieces

def StartsLoop (tokens : List Token) : Prop := ∃ start, tokens = .name "for" :: .lparen :: start

variable {s : Stmt}

theorem readPieces_single (h : ¬StartsLoop tokens) (hread : readStmt tokens = some s) (pieces : List Piece) :
    readPieces (⟨tokens, .semicolon⟩ :: pieces) = (readPieces pieces).map (s :: ·) := by
  rw [readPieces, hread]
  · cases readPieces pieces <;> rfl
  · intro start _ _ _ _ _ htokens
    exact h ⟨start, htokens⟩

theorem readStore_append {tokens' : List Token} {buffer : String} {index e : Expr}
    (hplace : Reads 0 tokens (.element buffer index)) (hvalue : Reads 0 tokens' e) :
    readStore (tokens ++ .equals :: tokens') = some (.store buffer index e) := by
  have hbefore : ∀ t ∈ tokens, decide (t ≠ .equals) = true := by
    intro t ht
    have hne : t ≠ .equals := by
      rintro rfl
      exact absurd (hplace.not_isMark _ ht) (by decide)
    simp [hne]
  rw [readStore, takeWhile_append_of_pos hbefore, dropWhile_append_of_pos hbefore]
  simp [hplace.readExpr_eq, hvalue.readExpr_eq]

/-- The tokens are one piece, and are read as the statement. -/
structure Stmt.IsPiece (s : Stmt) (tokens : List Token) : Prop where
  not_isStop : ∀ t ∈ tokens, t.isStop = false
  not_startsLoop : ¬StartsLoop tokens
  readStmt_eq : readStmt tokens = some s

section Piece

variable {tokens place : List Token} {e index : Expr}

theorem Reads.not_isStop (h : Reads 0 tokens e) : ∀ t ∈ tokens, t.isStop = false := by
  intro t ht
  have hmark := h.not_isMark t ht
  cases t <;> first | rfl | cases hmark

theorem isPiece_bind (h : Reads 0 tokens e) (w : String) :
    (Stmt.bind w e).IsPiece (.name "let" :: .name w :: .equals :: tokens) where
  not_isStop := by simpa [Token.isStop] using h.not_isStop
  not_startsLoop := by simp [StartsLoop]
  readStmt_eq := by rw [readStmt, h.readExpr_eq, map_some]

theorem isPiece_declare (h : Reads 0 tokens e) (w : String) :
    (Stmt.declare w none e).IsPiece (.name "var" :: .name w :: .equals :: tokens) where
  not_isStop := by simpa [Token.isStop] using h.not_isStop
  not_startsLoop := by simp [StartsLoop]
  readStmt_eq := by rw [readStmt, h.readExpr_eq, map_some]

theorem isPiece_declare_type (h : Reads 0 tokens e) (w : String) {type : ScalarType} (htype : type ∈ scalarTypes) :
    (Stmt.declare w (some type) e).IsPiece
      (.name "var" :: .name w :: .colon :: .name type.text :: .equals :: tokens) where
  not_isStop := by simpa [Token.isStop] using h.not_isStop
  not_startsLoop := by simp [StartsLoop]
  readStmt_eq := by
    have hfind : scalarTypes.find? (·.text == type.text) = some type := by
      simp only [scalarTypes, mem_cons, not_mem_nil, or_false] at htype
      rcases htype with rfl | rfl | rfl <;> rfl
    rw [readStmt, hfind, h.readExpr_eq, bind_some, map_some]

theorem isPiece_assign (h : Reads 0 tokens e) (w : String) :
    (Stmt.assign w e).IsPiece (.name w :: .equals :: tokens) where
  not_isStop := by simpa [Token.isStop] using h.not_isStop
  not_startsLoop := by simp [StartsLoop]
  readStmt_eq := by rw [readStmt, h.readExpr_eq, map_some]

theorem isPiece_store {buffer : String} (hindex : Reads 0 place index) (h : Reads 0 tokens e) :
    (Stmt.store buffer index e).IsPiece
      ((.name buffer :: .lbracket :: place ++ [.rbracket]) ++ .equals :: tokens) where
  not_isStop := by
    intro t ht
    rcases mem_append.mp ht with ht | ht
    · have hplace : Reads 0 (.name buffer :: .lbracket :: place ++ [.rbracket]) (.element buffer index) :=
        hindex.element buffer
      exact hplace.not_isStop t ht
    · rcases mem_cons.mp ht with rfl | ht
      · rfl
      · exact h.not_isStop t ht
  not_startsLoop := by simp [StartsLoop]
  readStmt_eq := by
    rw [← readStore_append (hindex.element buffer) h]
    simp [readStmt]

/-! A loop with its counter, its bound and its one statement. -/

def startTokens (w : String) : List Token :=
  [.name "for", .lparen, .name "var", .name w, .colon, .name "u32", .equals, .unsigned 0]

def stepTokens (w : String) : List Token := [.name w, .equals, .name w, .operator .add, .unsigned 1, .rparen]

def loopPieces (w : String) (bound body : List Token) : List Piece :=
  [⟨startTokens w, .semicolon⟩, ⟨.name w :: .less :: bound, .semicolon⟩, ⟨stepTokens w, .lbrace⟩, ⟨body, .semicolon⟩,
    ⟨[], .rbrace⟩]

theorem isCut_loopPieces (w : String) {bound : List Token} (hbound : Reads 0 bound e) (hbody : s.IsPiece tokens) :
    ∀ p ∈ loopPieces w bound tokens, p.IsCut := by
  simp only [loopPieces, forall_mem_cons]
  refine ⟨⟨rfl, ?_⟩, ⟨rfl, ?_⟩, ⟨rfl, ?_⟩, ⟨rfl, hbody.not_isStop⟩, ⟨rfl, by simp⟩, by simp⟩
  · simp [startTokens, Token.isStop]
  · simpa [Token.isStop] using hbound.not_isStop
  · simp [stepTokens, Token.isStop]

theorem readPieces_loop (w : String) {bound : List Token} (hbound : Reads 0 bound e) (hbody : s.IsPiece tokens)
    (pieces : List Piece) :
    readPieces (loopPieces w bound tokens ++ pieces) = (readPieces pieces).map (.loop w e s :: ·) := by
  show readPieces (⟨.name "for" :: .lparen :: _, .semicolon⟩ :: ⟨_, .semicolon⟩ :: ⟨_, .lbrace⟩ :: ⟨_, .semicolon⟩ ::
    ⟨[], .rbrace⟩ :: pieces) = _
  rw [readPieces, hbody.readStmt_eq]
  simp only [stepTokens, readCounter, hbound.readExpr_eq]
  cases readPieces pieces <;> rfl

end Piece

/-! ## Texts of statements -/

def Stmt.isLoop : Stmt → Bool
  | .loop .. => true
  | _ => false

/-- The text of the statement is read as the statement. Loops are not nested. -/
def Stmt.Readable : Stmt → Prop
  | .bind w e | .assign w e => isName w.toList = true ∧ e.Readable 0
  | .declare w type e => isName w.toList = true ∧ (∀ t ∈ type, t ∈ scalarTypes) ∧ e.Readable 0
  | .store buffer index e => isName buffer.toList = true ∧ index.Readable 0 ∧ e.Readable 0
  | .loop counter bound body =>
    isName counter.toList = true ∧ bound.Readable 0 ∧ body.Readable ∧ body.isLoop = false

section Text

variable {indent w : String}

theorem lex_blank (text : List Char) : lex (' ' :: text) = lex text := lex_append_cons (a := []) rfl rfl

theorem lex_line_end (text : List Char) : lex ('\n' :: text) = lex text := lex_append_cons (a := []) rfl rfl

theorem lex_indent (hindent : ∀ c ∈ indent.toList, c = ' ') (text : List Char) :
    lex (indent.toList ++ text) = lex text := by
  generalize indent.toList = blanks at hindent
  induction blanks with
  | nil => rfl
  | cons c blanks ih =>
    obtain rfl := hindent c (by simp)
    rw [cons_append, lex_blank, ih fun c hc => hindent c (by simp [hc])]

/-- The first part in the parentheses of a loop. -/
def startText (w : String) : List Char := "for (var".toList ++ ' ' :: (w.toList ++ ':' :: " u32 = 0u".toList)

theorem lex_startText (h : isName w.toList = true) : lex (startText w) = startTokens w := by
  have hvar : lex "for (var".toList = [.name "for", .lparen, .name "var"] := by decide +kernel
  have htype : lex " u32 = 0u".toList = [.name "u32", .equals, .unsigned 0] := by decide +kernel
  unfold startText
  rw [lex_append_cons rfl rfl, lex_append_cons (c := ':') rfl rfl, lex_name h]
  rfl

/-- The second part. -/
def testText (w : String) (bound : Expr) : List Char :=
  ' ' :: (w.toList ++ ' ' :: ("<".toList ++ ' ' :: bound.text.toList))

theorem lex_testText (h : isName w.toList = true) (bound : Expr) :
    lex (testText w bound) = .name w :: .less :: lex bound.text.toList := by
  rw [testText, lex_blank, lex_append_cons rfl rfl, lex_append_cons rfl rfl, lex_name h]
  rfl

/-- The third part. -/
def stepText (w : String) : List Char :=
  ' ' :: (w.toList ++ ' ' :: ("=".toList ++ ' ' :: (w.toList ++ ' ' :: "+ 1u) ".toList)))

theorem lex_stepText (h : isName w.toList = true) : lex (stepText w) = stepTokens w := by
  have hone : lex "+ 1u) ".toList = [.operator .add, .unsigned 1, .rparen] := by decide +kernel
  rw [stepText, lex_blank, lex_append_cons rfl rfl, lex_append_cons rfl rfl, lex_append_cons rfl rfl, lex_name h]
  rfl

theorem lex_line (hindent : ∀ c ∈ indent.toList, c = ' ') (left : List Char) (e : Expr) (rest : List Char) :
    lex (indent.toList ++ (left ++ ' ' :: '=' :: ' ' :: (e.text.toList ++ ';' :: '\n' :: rest))) =
      (lex left ++ .equals :: lex e.text.toList) ++ .semicolon :: lex rest := by
  have hequals : ∀ text, lex ('=' :: ' ' :: text) = .equals :: lex text :=
    fun text => lex_append_cons (a := ['=']) rfl rfl
  rw [lex_indent hindent, lex_append_cons rfl rfl, hequals, lex_append_cons rfl rfl, lex_line_end, append_assoc]
  rfl

/-- The tokens of a statement end at its semicolon. -/
theorem Stmt.lex_single (hindent : ∀ c ∈ indent.toList, c = ' ') (h : s.Readable) (hloop : s.isLoop = false)
    (rest : List Char) :
    ∃ tokens, lex ((s.text indent).toList ++ rest) = tokens ++ .semicolon :: lex rest ∧ s.IsPiece tokens := by
  -- each line has what is bound, declared, assigned or written on its left
  have hline : ∀ (left : List Char) (e : Expr), (s.text indent).toList ++ rest =
      indent.toList ++ (left ++ ' ' :: '=' :: ' ' :: (e.text.toList ++ ';' :: '\n' :: rest)) →
      s.IsPiece (lex left ++ .equals :: lex e.text.toList) →
      ∃ tokens, lex ((s.text indent).toList ++ rest) = tokens ++ .semicolon :: lex rest ∧ s.IsPiece tokens := by
    intro left e htext hpiece
    exact ⟨_, by rw [htext, lex_line hindent], hpiece⟩
  cases s with
  | bind w e =>
    have hleft : lex ("let".toList ++ ' ' :: w.toList) = [.name "let", .name w] := by
      rw [lex_append_cons rfl rfl, lex_name h.1]
      rfl
    apply hline ("let".toList ++ ' ' :: w.toList) e (by simp [text, toString])
    rw [hleft]
    exact isPiece_bind (e.reads_text h.2) w
  | declare w type e =>
    obtain ⟨hw, htype, he⟩ := h
    cases type with
    | none =>
      have hleft : lex ("var".toList ++ ' ' :: w.toList) = [.name "var", .name w] := by
        rw [lex_append_cons rfl rfl, lex_name hw]
        rfl
      apply hline ("var".toList ++ ' ' :: w.toList) e (by simp [text, toString])
      rw [hleft]
      exact isPiece_declare (e.reads_text he) w
    | some type =>
      have htype : type ∈ scalarTypes := htype type rfl
      have hleft : lex ("var".toList ++ ' ' :: (w.toList ++ ':' :: ' ' :: type.text.toList)) =
          [.name "var", .name w, .colon, .name type.text] := by
        rw [lex_append_cons rfl rfl, lex_append_cons (c := ':') rfl rfl, lex_name hw, lex_blank type.text.toList,
          lex_name (isName_scalarType htype)]
        rfl
      apply hline ("var".toList ++ ' ' :: (w.toList ++ ':' :: ' ' :: type.text.toList)) e (by simp [text, toString])
      rw [hleft]
      exact isPiece_declare_type (e.reads_text he) w htype
  | assign w e =>
    apply hline w.toList e (by simp [text, toString])
    rw [lex_name h.1]
    exact isPiece_assign (e.reads_text h.2) w
  | store buffer index e =>
    obtain ⟨hbuffer, hindex, he⟩ := h
    apply hline (Expr.element buffer index).text.toList e (by simp [text, Expr.text, toString])
    rw [lex_element hbuffer]
    exact isPiece_store (index.reads_text hindex) (e.reads_text he)
  | loop counter bound body => cases hloop

theorem eq_blank_of_mem_indent {c : Char} (h : c ∈ "    ".toList) : c = ' ' :=
  eq_of_mem_replicate (show c ∈ replicate 4 ' ' from h)

theorem Stmt.lex_loop (hindent : ∀ c ∈ indent.toList, c = ' ') {counter : String} {bound : Expr} {body : Stmt}
    (h : (loop counter bound body).Readable) (rest : List Char) :
    ∃ tokens, body.IsPiece tokens ∧ lex (((loop counter bound body).text indent).toList ++ rest) =
      (loopPieces counter (lex bound.text.toList) tokens).flatMap Piece.all ++ lex rest := by
  obtain ⟨hcounter, -, hbody, hsingle⟩ := h
  have hindent' : ∀ c ∈ (indent ++ "    ").toList, c = ' ' := by
    intro c hc
    rw [String.toList_append] at hc
    rcases mem_append.mp hc with hc | hc
    · exact hindent c hc
    · exact eq_blank_of_mem_indent hc
  obtain ⟨tokens, hlex, hpiece⟩ := lex_single hindent' hbody hsingle (indent.toList ++ '\x7d' :: '\n' :: rest)
  -- the text is cut at the semicolons and the braces, which no token extends over
  have htext : ((loop counter bound body).text indent).toList ++ rest =
      indent.toList ++ (startText counter ++ ';' :: (testText counter bound ++ ';' :: (stepText counter ++
        '\x7b' :: '\n' :: ((body.text (indent ++ "    ")).toList ++ (indent.toList ++ '\x7d' :: '\n' :: rest))))) := by
    unfold startText testText stepText
    simp [text, toString]
  have hclose : lex ('\x7d' :: '\n' :: rest) = .rbrace :: lex rest := by
    have happend := lex_append_cons (a := []) (c := '\x7d') (b := '\n' :: rest) rfl rfl
    rwa [lex_line_end] at happend
  refine ⟨tokens, hpiece, ?_⟩
  rw [htext, lex_indent hindent, lex_append_cons (c := ';') rfl rfl, lex_append_cons (c := ';') rfl rfl,
    lex_append_cons (c := '\x7b') rfl rfl, lex_startText hcounter, lex_testText hcounter, lex_stepText hcounter,
    lex_line_end, hlex, lex_indent hindent, hclose, show lex [';'] = [.semicolon] by rfl,
    show lex ['\x7b'] = [.lbrace] by rfl]
  simp [loopPieces, Piece.all]

theorem Stmt.lex_text (hindent : ∀ c ∈ indent.toList, c = ' ') (h : s.Readable) (rest : List Char) :
    ∃ pieces : List Piece, lex ((s.text indent).toList ++ rest) = pieces.flatMap Piece.all ++ lex rest ∧
      (∀ p ∈ pieces, p.IsCut) ∧ ∀ more, readPieces (pieces ++ more) = (readPieces more).map (s :: ·) := by
  by_cases hloop : s.isLoop = true
  · cases s with
    | loop counter bound body =>
      have hbound := bound.reads_text h.2.1
      obtain ⟨tokens, hpiece, hlex⟩ := lex_loop hindent h rest
      exact ⟨_, hlex, isCut_loopPieces counter hbound hpiece, readPieces_loop counter hbound hpiece⟩
    | _ => cases hloop
  · rw [Bool.not_eq_true] at hloop
    obtain ⟨tokens, hlex, hpiece⟩ := lex_single hindent h hloop rest
    refine ⟨[⟨tokens, .semicolon⟩], ?_, ?_, readPieces_single hpiece.not_startsLoop hpiece.readStmt_eq⟩
    · rw [hlex]
      simp [Piece.all]
    · intro p hp
      obtain rfl := mem_singleton.mp hp
      exact ⟨rfl, hpiece.not_isStop⟩

end Text

theorem readStmts_text {body : List Stmt} (h : ∀ s ∈ body, s.Readable) :
    readStmts (String.join (body.map (Stmt.text "    "))) = some body := by
  induction body with
  | nil => rfl
  | cons s body ih =>
    obtain ⟨pieces, hlex, hcut, hread⟩ := Stmt.lex_text (fun _ => eq_blank_of_mem_indent) (h s (by simp))
      (String.join (body.map (Stmt.text "    "))).toList
    have hbody := ih fun s hs => h s (by simp [hs])
    rw [readStmts] at hbody ⊢
    obtain ⟨more, hmore, hbody⟩ := bind_eq_some_iff.mp hbody
    rw [map_cons, String.join_cons, String.toList_append, hlex, pieces?_flatMap hcut, hmore, map_some,
      bind_some, hread, hbody, map_some]

example : readStmts "    let y = a - b * c - d;\n" = some [.bind "y" (.binary .sub (.binary .sub (.var "a")
    (.binary .mul (.var "b") (.var "c"))) (.var "d"))] := by
  decide +kernel

end LazyTensor.Shader
