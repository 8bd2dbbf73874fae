import LazyTensor.Proofs.Exec
import LazyTensor.Proofs.Kernel.Steps
import LazyTensor.Proofs.Shader.Words
import LazyTensor.Proofs.Signature
import LazyTensor.Shader.Source

/-!
# Kernels of programs compute what the host computes

The kernel of a program binds its inputs and the result of each step to names, and writes the last result. Its
text is read back as these statements (`readStmts_bodyText`), and the values that an invocation binds are the
results of the steps on the elements at its number, as the host computes them (`run?_stepStmts`). This is shown
for integers, on which both are exact: the host and the device compute modulo `2 ^ 32`.
-/

namespace LazyTensor.Shader

open List Option

open LazyTensor.Kernel (applyAt operandAt resultsAt runSteps runSteps_single size_resultsAt)

/-- The data type of integers of 32 bits. -/
def wordDType (signed : Bool) : DType := if signed then .int32 else .uint32

/-! ## Expressions of steps -/

variable {signed : Bool} {i : Nat} {w : String}

section Steps

variable {kind : OpKind} {dtype : DType} {t : ScalarType} {args : List Expr} {e : Expr}

theorem stepExpr_eq_ok (h : stepExpr kind dtype t args = .ok e) :
    ∃ op, kind = .elementwise op ∧ (op.floatOnly = true → dtype = .float32) ∧ (op.signedOnly = true → dtype ≠ .uint32) ∧
      elementwiseExpr t (dtype == .float32) op args = .ok e := by
  unfold stepExpr at h
  split at h
  · cases h
  · rename_i hfloat
    split at h
    · cases h
    · rename_i hsigned
      split at h
      · rename_i op
        refine ⟨op, rfl, ?_, ?_, h⟩
        · simpa [OpKind.floatOnly, OpKind.elementwise?] using hfloat
        · simpa [OpKind.signedOnly, OpKind.elementwise?] using hsigned
      · cases h

theorem elementwiseExpr_cases {isFloat : Bool} {op : Elementwise} (h : elementwiseExpr t isFloat op args = .ok e) :
    (∃ op' a rest, op = .unary op' ∧ args = a :: rest ∧ e = unaryExpr t a op') ∨
    (∃ op' a b rest, op = .binary op' ∧ args = a :: b :: rest ∧ e = binaryExpr a b op') ∨
    ∃ a b c rest, op = .fusedMulAdd ∧ args = a :: b :: c :: rest ∧ e = mulAddExpr isFloat a b c := by
  unfold elementwiseExpr at h
  split at h
  · exact .inl ⟨_, _, _, rfl, rfl, (Except.ok.inj h).symm⟩
  · exact .inr (.inl ⟨_, _, _, _, rfl, rfl, (Except.ok.inj h).symm⟩)
  · exact .inr (.inr ⟨_, _, _, _, rfl, rfl, (Except.ok.inj h).symm⟩)
  · cases h

theorem readable_stepExpr (h : stepExpr kind dtype t args = .ok e) (ht : t ∈ scalarTypes)
    (hargs : ∀ a ∈ args, ∃ w : String, a = .var w ∧ isName w.toList = true) : e.Readable 0 := by
  have hvar : ∀ a ∈ args, ∀ rank, a.Readable rank := by
    intro a ha rank
    obtain ⟨w, rfl, hw⟩ := hargs a ha
    exact hw
  obtain ⟨op, -, -, -, h⟩ := stepExpr_eq_ok h
  rcases elementwiseExpr_cases h with ⟨op', a, rest, -, rfl, rfl⟩ | ⟨op', a, b, rest, -, rfl, rfl⟩ |
    ⟨a, b, c, rest, -, rfl, rfl⟩
  · have ha := hvar a (by simp)
    cases op' <;> simp [unaryExpr, Expr.Readable, ha, ht]
  · have ha := hvar a (by simp)
    have hb := hvar b (by simp)
    cases op' <;> simp [binaryExpr, Expr.Readable, ha, hb]
  · have ha := hvar a (by simp)
    have hb := hvar b (by simp)
    have hc := hvar c (by simp)
    unfold mulAddExpr
    split <;> simp [Expr.Readable, Operator.rank, ha, hb, hc]

end Steps

section Evaluation

variable {storage : List Storage} {memory : Memory} {names : Names} {a b c e : Expr}
  {x y z r : IntWord ⟨32, signed⟩}

section

variable (ha : a.eval? storage memory names = some (.ofElement x))

include ha

theorem eval?_binary {op : Operator} (hb : b.eval? storage memory names = some (.ofElement y))
    (h : op.apply? (.ofElement x) (.ofElement y) = some (.ofElement r)) :
    (Expr.binary op a b).eval? storage memory names = some (.ofElement r) := by
  rwa [Expr.eval?, ha, hb]

theorem eval?_apply₂ {f : Function₂} (hb : b.eval? storage memory names = some (.ofElement y))
    (h : f.apply? (.ofElement x) (.ofElement y) = some (.ofElement r)) :
    (Expr.apply₂ f a b).eval? storage memory names = some (.ofElement r) := by
  rwa [Expr.eval?, ha, hb]

theorem eval?_unaryExpr {op : UnaryOp} (hfloat : (Elementwise.unary op).floatOnly = false)
    (hsigned : (Elementwise.unary op).signedOnly = true → signed = true) (h : IntWord.unary op x = some r) :
    (unaryExpr (wordType signed) a op).eval? storage memory names = some (.ofElement r) := by
  cases op with
  | neg =>
    obtain rfl := hsigned rfl
    obtain rfl := Option.some.inj h
    rw [unaryExpr, Expr.eval?, ha]
    exact neg?_ofElement x
  | abs =>
    obtain rfl := hsigned rfl
    obtain rfl := Option.some.inj h
    rw [unaryExpr, Expr.eval?, ha]
    exact abs_ofElement x
  | square =>
    obtain rfl := Option.some.inj h
    exact eval?_binary ha ha (mul_ofElement x x)
  | relu =>
    obtain rfl := Option.some.inj h
    exact eval?_apply₂ ha (by rw [Expr.eval?, ofLiteral?_zero]) (max_ofElement x .zero)
  | _ => cases hfloat

theorem eval?_binaryExpr {op : BinaryOp}
    (hb : b.eval? storage memory names = some (.ofElement y)) (h : IntWord.binary op x y = some r) :
    (binaryExpr a b op).eval? storage memory names = some (.ofElement r) := by
  -- the value of an expression in parentheses is that of the expression
  cases op with
  | div =>
    exact eval?_binary ha hb (div_ofElement h)
  | add =>
    obtain rfl := Option.some.inj h
    exact eval?_binary ha hb (add_ofElement x y)
  | sub =>
    obtain rfl := Option.some.inj h
    exact eval?_binary ha hb (sub_ofElement x y)
  | mul =>
    obtain rfl := Option.some.inj h
    exact eval?_binary ha hb (mul_ofElement x y)
  | max =>
    obtain rfl := Option.some.inj h
    exact eval?_apply₂ ha hb (max_ofElement x y)
  | min =>
    obtain rfl := Option.some.inj h
    exact eval?_apply₂ ha hb (min_ofElement x y)

theorem eval?_mulAddExpr (hb : b.eval? storage memory names = some (.ofElement y))
    (hc : c.eval? storage memory names = some (.ofElement z)) :
    (mulAddExpr false a b c).eval? storage memory names = some (.ofElement ((x.mul y).add z)) := by
  exact eval?_binary (eval?_binary ha hb (mul_ofElement x y)) hc (add_ofElement (x.mul y) z)

end

theorem eval?_stepExpr {kind : OpKind} {args : List Expr} {xs : List (IntWord ⟨32, signed⟩)}
    (h : stepExpr kind (wordDType signed) (wordType signed) args = .ok e)
    (hargs : args.map (·.eval? storage memory names) = xs.map fun x => some (.ofElement x))
    (happly : applyAt kind xs = some r) : e.eval? storage memory names = some (.ofElement r) := by
  obtain ⟨op, rfl, hfloat, hsigned, h⟩ := stepExpr_eq_ok h
  have hdtype : (wordDType signed == .float32) = false := by cases signed <;> decide
  rw [hdtype] at h
  -- the expression has one form for each number of operands
  rcases elementwiseExpr_cases h with ⟨op', a, rest, rfl, rfl, rfl⟩ | ⟨op', a, b, rest, rfl, rfl, rfl⟩ |
    ⟨a, b, c, rest, rfl, rfl, rfl⟩
  · match xs, happly with
    | [x], happly =>
      simp only [map_cons, List.cons.injEq] at hargs
      apply eval?_unaryExpr hargs.1 _ _ happly
      · rw [Bool.eq_false_iff]
        intro hop
        simp [hfloat hop] at hdtype
      · intro hop
        cases signed with
        | true => rfl
        | false => exact absurd rfl (hsigned hop)
  · match xs, happly with
    | [x, y], happly =>
      simp only [map_cons, List.cons.injEq] at hargs
      exact eval?_binaryExpr hargs.1 hargs.2.1 happly
  · match xs, happly with
    | [x, y, z], happly =>
      simp only [map_cons, List.cons.injEq] at hargs
      obtain rfl := Option.some.inj happly
      exact eval?_mulAddExpr hargs.1 hargs.2.1 hargs.2.2.1

end Evaluation

/-! ## Names -/

/-- A word with a number after it. -/
def numbered (w : String) (n : Nat) : String := s!"{w}{n}"

theorem toList_numbered (w : String) (n : Nat) : (numbered w n).toList = w.toList ++ (toString n).toList := by
  simp [numbered, toString]

theorem isName_numbered (h : isName w.toList = true) (n : Nat) : isName (numbered w n).toList = true := by
  have hne := ne_nil_of_isName h
  simp only [isName, Bool.and_eq_true, List.all_eq_true] at h
  simp only [isName, Bool.and_eq_true, List.all_eq_true, toList_numbered, mem_append,
    head?_append_left hne]
  refine ⟨?_, h.2⟩
  rintro c (hc | hc)
  · exact h.1 c hc
  · exact isWordChar_of_mem_toString hc

theorem numbered_inj {m n : Nat} : numbered w m = numbered w n ↔ m = n := by
  refine ⟨fun h => ?_, fun h => h ▸ rfl⟩
  have hlist := congrArg String.toList h
  rw [toList_numbered, toList_numbered] at hlist
  exact Text.repr_injective (String.toList_inj.mp (append_cancel_left hlist))

theorem numbered_ne {v : String} (hw : w.toList ≠ []) (h : w.toList.head? ≠ v.toList.head?) (n : Nat) :
    numbered w n ≠ v := by
  intro heq
  apply h
  rw [← heq, toList_numbered, head?_append_left hw]

/-- What is bound while a kernel of a program runs: the number of the invocation, the inputs that are loaded,
and the results so far. -/
structure Bound (idx : UInt32) (loaded : List (IntWord ⟨32, signed⟩)) (results : Array (IntWord ⟨32, signed⟩))
    (names : Names) : Prop where
  idx : names.lookup "idx" = some (.u32 idx)
  input : ∀ i : Nat, names.lookup (numbered "x" i) = loaded[i]?.map Word.ofElement
  result : ∀ i : Nat, names.lookup (numbered "s" i) = results[i]?.map Word.ofElement

section Bound

variable {idx : UInt32} {loaded : List (IntWord ⟨32, signed⟩)} {results : Array (IntWord ⟨32, signed⟩)} {names : Names}

theorem x_ne_idx (i : Nat) : numbered "x" i ≠ "idx" := numbered_ne (by decide) (by decide) i

theorem s_ne_idx (i : Nat) : numbered "s" i ≠ "idx" := numbered_ne (by decide) (by decide) i

theorem x_ne_s (i j : Nat) : numbered "x" i ≠ numbered "s" j := by
  apply numbered_ne (by decide)
  rw [toList_numbered]
  simp

theorem bound_idx (idx : UInt32) : Bound idx ([] : List (IntWord ⟨32, signed⟩)) #[] [("idx", .u32 idx)] where
  idx := rfl
  input i := lookup_cons_of_ne (x_ne_idx i) _ _
  result i := lookup_cons_of_ne (s_ne_idx i) _ _

theorem Bound.load (h : Bound idx loaded results names) (x : IntWord ⟨32, signed⟩) :
    Bound idx (loaded ++ [x]) results ((numbered "x" loaded.length, .ofElement x) :: names) where
  idx := by rw [lookup_cons_of_ne (x_ne_idx _).symm, h.idx]
  input i := by
    by_cases hi : i = loaded.length
    · simp [hi]
    · rw [lookup_cons_of_ne (fun heq => hi (numbered_inj.mp heq)), h.input, getElem?_append]
      by_cases hlt : i < loaded.length
      · rw [if_pos hlt]
      · rw [if_neg hlt, getElem?_eq_none (by omega), getElem?_eq_none (by simp; omega)]
  result i := by rw [lookup_cons_of_ne (x_ne_s _ i).symm, h.result]

theorem Bound.push (h : Bound idx loaded results names) (y : IntWord ⟨32, signed⟩) :
    Bound idx loaded (results.push y) ((numbered "s" results.size, .ofElement y) :: names) where
  idx := by rw [lookup_cons_of_ne (s_ne_idx _).symm, h.idx]
  input i := by rw [lookup_cons_of_ne (x_ne_s i _), h.input]
  result i := by
    by_cases hi : i = results.size
    · simp [hi]
    · rw [lookup_cons_of_ne (fun heq => hi (numbered_inj.mp heq)), h.result, Array.getElem?_push, if_neg hi]

variable {storage : List Storage} {memory : Memory} {steps : List Step} {stmts : List Stmt} {p : Program}

theorem Bound.eval?_operandExpr (h : Bound idx loaded results names) {o : Operand} {numInputs : Int}
    (ho : o.ValidAt numInputs i) :
    (operandExpr o).eval? storage memory names = (operandAt (loaded[·]?) results o).map Word.ofElement := by
  cases o with
  | input k =>
    obtain ⟨n, rfl⟩ := Int.eq_ofNat_of_zero_le ho.1
    exact h.input n
  | step k =>
    obtain ⟨n, rfl⟩ := Int.eq_ofNat_of_zero_le ho.1
    exact h.result n

theorem exists_name_operandExpr {o : Operand} {numInputs : Int} (ho : o.ValidAt numInputs i) :
    ∃ w : String, operandExpr o = .var w ∧ isName w.toList = true := by
  cases o with
  | input k =>
    obtain ⟨n, rfl⟩ := Int.eq_ofNat_of_zero_le ho.1
    exact ⟨_, rfl, isName_numbered rfl n⟩
  | step k =>
    obtain ⟨n, rfl⟩ := Int.eq_ofNat_of_zero_le ho.1
    exact ⟨_, rfl, isName_numbered rfl n⟩

theorem stepStmts_cons_eq_ok {t : ScalarType} {s : Step} (h : stepStmts p t i (s :: steps) = .ok stmts) :
    ∃ e rest, stepExpr s.kind p.dtype t (s.operands.map operandExpr) = .ok e ∧ stepStmts p t (i + 1) steps = .ok rest ∧
      stmts = .bind (numbered "s" i) e :: rest := by
  rw [stepStmts] at h
  cases hexpr : stepExpr s.kind p.dtype t (s.operands.map operandExpr) with
  | error e =>
    rw [hexpr] at h
    cases h
  | ok e =>
    rw [hexpr] at h
    cases hrest : stepStmts p t (i + 1) steps with
    | error e' =>
      rw [hrest] at h
      cases h
    | ok rest =>
      rw [hrest] at h
      exact ⟨e, rest, rfl, rfl, (Except.ok.inj h).symm⟩

theorem readable_stepStmts {t : ScalarType} (ht : t ∈ scalarTypes) (h : stepStmts p t i steps = .ok stmts)
    (hvalid : ∀ (j : Nat) (s : Step), steps[j]? = some s → s.ValidAt p.numInputs (i + j)) :
    ∀ s ∈ stmts, s.Readable := by
  induction steps generalizing i stmts with
  | nil =>
    obtain rfl := Except.ok.inj h
    exact nofun
  | cons s steps ih =>
    obtain ⟨e, rest, hexpr, hrest, rfl⟩ := stepStmts_cons_eq_ok h
    have hs : s.ValidAt p.numInputs i := hvalid 0 s rfl
    have he : e.Readable 0 := by
      apply readable_stepExpr hexpr ht
      intro a ha
      obtain ⟨o, ho, rfl⟩ := List.mem_map.mp ha
      exact exists_name_operandExpr (hs.operands o ho)
    have htail := ih hrest (Program.validAt_tail hvalid)
    intro u hu
    rcases mem_cons.mp hu with rfl | hu
    · exact ⟨isName_numbered rfl i, he⟩
    · exact htail u hu

theorem unaryTotal_of_stepStmts (hdtype : p.dtype = wordDType signed)
    (h : stepStmts p (wordType signed) i steps = .ok stmts) : Kernel.UnaryTotal (IntWord ⟨32, signed⟩) steps := by
  induction steps generalizing i stmts with
  | nil => exact nofun
  | cons s steps ih =>
    obtain ⟨e, rest, hexpr, hrest, rfl⟩ := stepStmts_cons_eq_ok h
    intro u hu op hop x
    rcases mem_cons.mp hu with rfl | hu
    · obtain ⟨op', hop', hfloat, -, -⟩ := stepExpr_eq_ok hexpr
      obtain rfl := OpKind.elementwise.inj (hop'.symm.trans hop)
      cases op with
      | reciprocal =>
        rw [hdtype] at hfloat
        cases signed <;> exact absurd hfloat (by decide)
      | _ => rfl
    · exact ih hrest u hu op hop x

theorem run?_stepStmts (storage : List Storage) (memory : Memory) (h : Bound idx loaded results names)
    (hdtype : p.dtype = wordDType signed) (hstmts : stepStmts p (wordType signed) results.size steps = .ok stmts)
    (hvalid : ∀ (j : Nat) (s : Step), steps[j]? = some s → s.ValidAt p.numInputs (results.size + j))
    {all : Array (IntWord ⟨32, signed⟩)} (hall : resultsAt (loaded[·]?) results steps = some all) (rest : List Stmt) :
    ∃ names', Bound idx loaded all names' ∧
      run? storage memory names (stmts ++ rest) = run? storage memory names' rest := by
  induction steps generalizing results stmts names with
  | nil =>
    obtain rfl := Except.ok.inj hstmts
    obtain rfl := Option.some.inj hall
    exact ⟨names, h, rfl⟩
  | cons s steps ih =>
    obtain ⟨e, stmts, hexpr, hstmts, rfl⟩ := stepStmts_cons_eq_ok hstmts
    obtain ⟨y, hy, hall⟩ := bind_eq_some_iff.mp hall
    obtain ⟨xs, hxs, happly⟩ := bind_eq_some_iff.mp hy
    have hs : s.ValidAt p.numInputs results.size := hvalid 0 s rfl
    -- the operands are bound to what the step is applied to
    have hargs : (s.operands.map operandExpr).map (·.eval? storage memory names) =
        xs.map fun x => some (.ofElement x) := by
      calc
        _ = (s.operands.map (operandAt (loaded[·]?) results)).map (Option.map Word.ofElement) := by
          rw [List.map_map, List.map_map]
          exact map_congr_left fun o ho => h.eval?_operandExpr (hs.operands o ho)
        _ = _ := by
          rw [mapM_eq_some_iff.mp hxs, List.map_map]
          rfl
    rw [hdtype] at hexpr
    have hvalue := eval?_stepExpr hexpr hargs happly
    have hfresh : names.lookup (numbered "s" results.size) = none := by
      rw [h.result, Array.getElem?_eq_none (Nat.le_refl _), map_none]
    obtain ⟨names', hbound, hrun⟩ := ih (h.push y) (by rwa [Array.size_push])
      (by rw [Array.size_push]; exact Program.validAt_tail hvalid) hall
    exact ⟨names', hbound, (run?_bind hfresh hvalue (stmts ++ rest)).trans hrun⟩

theorem run?_loads {inputs : List (IntWord ⟨32, signed⟩)}
    (hload : ∀ (i : Nat) (x : IntWord ⟨32, signed⟩) (names : Names), inputs[i]? = some x →
      names.lookup "idx" = some (.u32 idx) →
      (Expr.element (numbered "in" i) Shader.idx).eval? storage memory names = some (.ofElement x))
    (rest : List (IntWord ⟨32, signed⟩)) (hinputs : inputs = loaded ++ rest) (h : Bound idx loaded #[] names)
    (body : List Stmt) :
    ∃ names', Bound idx inputs #[] names' ∧
      run? storage memory names ((range' loaded.length rest.length).map
        (fun i => .bind (numbered "x" i) (.element (numbered "in" i) Shader.idx)) ++ body) =
      run? storage memory names' body := by
  induction rest generalizing loaded names with
  | nil =>
    rw [append_nil] at hinputs
    subst hinputs
    exact ⟨names, h, rfl⟩
  | cons x rest ih =>
    have hvalue := hload loaded.length x names (by simp [hinputs]) h.idx
    have hfresh : names.lookup (numbered "x" loaded.length) = none := by
      rw [h.input, getElem?_eq_none (Nat.le_refl _), map_none]
    obtain ⟨names', hbound, hrun⟩ := ih (by simp [hinputs]) (h.load x)
    refine ⟨names', hbound, (run?_bind hfresh hvalue _).trans ?_⟩
    rwa [length_append] at hrun

end Bound

/-! ## Kernels -/

/-- The buffers of a program: its inputs in order, and then its output. -/
def programStorage (p : Program) (t : ScalarType) : List Storage :=
  (List.range p.numInputs.toNat).map (fun (i : Nat) => ⟨i, false, numbered "in" i, t⟩) ++
    [⟨p.numInputs, true, "out", t⟩]

section Kernel

variable {p : Program} {t : ScalarType} {workgroupSize : Int} {k : Kernel}

theorem mem_programStorage {b : Storage} : b ∈ programStorage p t ↔
    (∃ i < p.numInputs.toNat, b = ⟨i, false, numbered "in" i, t⟩) ∨ b = ⟨p.numInputs, true, "out", t⟩ := by
  simp [programStorage, eq_comm]

theorem find?_name {storage : List Storage} {b : Storage} (hb : b ∈ storage)
    (hunique : ∀ b' ∈ storage, b'.name = b.name → b' = b) : storage.find? (·.name == b.name) = some b := by
  cases hfind : storage.find? (·.name == b.name) with
  | none => simpa using find?_eq_none.mp hfind b hb
  | some b' => rw [hunique b' (mem_of_find?_eq_some hfind) (by simpa using find?_some hfind)]

theorem in_ne_out (i : Nat) : numbered "in" i ≠ "out" := numbered_ne (by decide) (by decide) i

theorem find?_input (hi : i < p.numInputs.toNat) :
    (programStorage p t).find? (·.name == numbered "in" i) = some ⟨i, false, numbered "in" i, t⟩ := by
  apply find?_name (mem_programStorage.mpr (.inl ⟨i, hi, rfl⟩))
  intro b hb hname
  rcases mem_programStorage.mp hb with ⟨j, -, rfl⟩ | rfl
  · rw [numbered_inj.mp hname]
  · exact absurd hname.symm (in_ne_out i)

theorem find?_output : (programStorage p t).find? (·.name == "out") = some ⟨p.numInputs, true, "out", t⟩ := by
  apply find?_name (mem_programStorage.mpr (.inr rfl))
  intro b hb hname
  rcases mem_programStorage.mp hb with ⟨j, -, rfl⟩ | rfl
  · exact absurd hname (in_ne_out j)
  · rfl

theorem programKernel_eq_ok (h : programKernel p workgroupSize = .ok k) :
    p.Valid ∧ ∃ t stmts, ScalarType.ofDType? p.dtype = some t ∧ stepStmts p t 0 p.steps = .ok stmts ∧
      k.storage = programStorage p t ∧ k.params.slot = p.numInputs + 1 ∧
      k.body = (range' 0 p.numInputs.toNat).map
        (fun i => .bind (numbered "x" i) (.element (numbered "in" i) idx)) ++ (stmts ++
          [storeOut (.var (numbered "s" (p.steps.length - 1)))]) := by
  unfold programKernel at h
  cases hvalid : p.validate with
  | error e =>
    rw [hvalid] at h
    cases h
  | ok u =>
    rw [hvalid] at h
    obtain ⟨t, ht, h⟩ := bind_eq_ok h
    obtain ⟨stmts, hstmts, h⟩ := bind_eq_ok h
    obtain rfl := Except.ok.inj h
    refine ⟨Program.validate_eq_ok_iff.mp hvalid, t, stmts, ?_, hstmts, rfl, rfl, ?_⟩
    · unfold scalarType at ht
      split at ht
      · rename_i t' ht'
        rw [ht', Except.ok.inj ht]
      · cases ht
    · rw [← range_eq_range', ← append_assoc]
      rfl

theorem mem_scalarTypes {dtype : DType} (h : ScalarType.ofDType? dtype = some t) : t ∈ scalarTypes := by
  unfold ScalarType.ofDType? at h
  grind [scalarTypes]

theorem readStmts_bodyText (h : programKernel p workgroupSize = .ok k) : readStmts k.bodyText = some k.body := by
  obtain ⟨hvalid, t, stmts, ht, hstmts, -, -, hbody⟩ := programKernel_eq_ok h
  apply readStmts_text
  intro s hs
  rw [hbody] at hs
  rcases mem_append.mp hs with hs | hs
  · obtain ⟨i, -, rfl⟩ := List.mem_map.mp hs
    exact ⟨isName_numbered rfl i, isName_numbered rfl i, rfl⟩
  · rcases mem_append.mp hs with hs | hs
    · exact readable_stepStmts (mem_scalarTypes ht) hstmts (fun j u hu => by simpa using hvalid.steps j u hu) s hs
    · obtain rfl := mem_singleton.mp hs
      exact ⟨rfl, rfl, isName_numbered rfl _⟩

/-- An invocation of a kernel writes the result of the program on the elements at its number. -/
theorem invoke?_programKernel (hdtype : p.dtype = wordDType signed) (hk : programKernel p workgroupSize = .ok k)
    {inputs : List (IntWord ⟨32, signed⟩)} (hcount : (inputs.length : Int) = p.numInputs)
    {all : Array (IntWord ⟨32, signed⟩)} (hall : resultsAt (inputs[·]?) #[] p.steps = some all)
    {y : IntWord ⟨32, signed⟩} (hy : all.back? = some y) {memory : Memory} {idx : UInt32}
    (hmemory : ∀ (i : Nat) (x : IntWord ⟨32, signed⟩), inputs[i]? = some x →
      (memory i)[idx.toNat]? = some (.ofElement x))
    (hout : idx.toNat < (memory p.numInputs).size) :
    k.invoke? memory idx = some (memory.set p.numInputs idx.toNat (.ofElement y)) := by
  obtain ⟨hvalid, t, stmts, ht, hstmts, hstorage, -, hbody⟩ := programKernel_eq_ok hk
  obtain rfl : wordType signed = t := by
    rw [hdtype] at ht
    cases signed <;> exact Option.some.inj ht
  have hlength : inputs.length = p.numInputs.toNat := by omega
  -- inputs are loaded from their slots
  have hload : ∀ (i : Nat) (x : IntWord ⟨32, signed⟩) (names : Names), inputs[i]? = some x →
      names.lookup "idx" = some (.u32 idx) →
      (Expr.element (numbered "in" i) Shader.idx).eval? k.storage memory names = some (.ofElement x) := by
    intro i x names hx hidx
    have hi : i < inputs.length := (List.getElem?_eq_some_iff.mp hx).1
    have hindex : Shader.idx.eval? k.storage memory names = some (.u32 idx) := hidx
    rw [Expr.eval?, hindex]
    simp only [hstorage, find?_input (hlength ▸ hi), bind_some, hmemory i x hx, filter_some,
      type_ofElement, decide_true, if_true]
  obtain ⟨names, hloaded, hrunLoads⟩ := run?_loads hload inputs rfl (bound_idx idx)
    (stmts ++ [storeOut (.var (numbered "s" (p.steps.length - 1)))])
  obtain ⟨names', hbound, hrunSteps⟩ := run?_stepStmts k.storage memory hloaded hdtype hstmts
    (fun j u hu => by simpa using hvalid.steps j u hu) hall
    [storeOut (.var (numbered "s" (p.steps.length - 1)))]
  have hresult : names'.lookup (numbered "s" (p.steps.length - 1)) = some (.ofElement y) := by
    have hsize := size_resultsAt hall
    rw [Array.size_empty, Nat.zero_add] at hsize
    rw [hbound.result, ← hsize, ← Array.back?_eq_getElem?, hy, map_some]
  have hstore : run? k.storage memory names' [storeOut (.var (numbered "s" (p.steps.length - 1)))] =
      some (memory.set p.numInputs idx.toNat (.ofElement y)) := by
    have hfind := find?_output (p := p) (t := wordType signed)
    rw [← hstorage] at hfind
    have hscope : Scope.store? k.storage ⟨memory, names', []⟩ "out" Shader.idx
        (.var (numbered "s" (p.steps.length - 1))) =
        some ⟨memory.set p.numInputs idx.toNat (.ofElement y), names', []⟩ :=
      Scope.store?_eq (b := ⟨p.numInputs, true, "out", wordType signed⟩) hfind hbound.idx hresult rfl
        (type_ofElement y).symm hout
    rw [run?, foldlM_cons, storeOut, Stmt.run?, hscope]
    rfl
  rw [Kernel.invoke?, readStmts_bodyText hk, hbody, ← hlength]
  exact hrunLoads.trans (hrunSteps.trans hstore)

end Kernel

/-- A kernel of integers and the host agree: unless a step divides by zero, the host has a result on any elements
of the inputs, and an invocation of the text of the kernel on these elements writes the same result. The inputs
are at the first slots, and the output and the parameters at the next two. -/
theorem invocation_eq_runSteps (p : Program) (signed : Bool) (hdtype : p.dtype = wordDType signed) (workgroupSize : Int)
    (k : Kernel) (hk : programKernel p workgroupSize = .ok k) (inputs : List (IntWord ⟨32, signed⟩))
    (hcount : (inputs.length : Int) = p.numInputs) (old : IntWord ⟨32, signed⟩)
    (hdivides : ∀ i, (runSteps (inputs.map fun x => .apart #[x]).toArray #[old] #[] p.steps).2 ≠
      some (.divisionByZero i)) :
    k.text = String.join (k.storage.map Storage.text) ++ k.params.text ++ k.entry ++ k.bodyText ++ "\x7d\n" ∧
    k.storage = programStorage p (wordType signed) ∧ k.params.slot = p.numInputs + 1 ∧
    ∃ y, runSteps (inputs.map fun x => .apart #[x]).toArray #[old] #[] p.steps = (#[y], none) ∧
      ∀ (memory : Memory) (idx : UInt32),
        (∀ (i : Nat) (x : IntWord ⟨32, signed⟩), inputs[i]? = some x → (memory i)[idx.toNat]? = some (.ofElement x)) →
        idx.toNat < (memory p.numInputs).size →
        k.invoke? memory idx = some (memory.set p.numInputs idx.toNat (.ofElement y)) := by
  obtain ⟨hvalid, t, stmts, ht, hstmts, hstorage, hparams, -⟩ := programKernel_eq_ok hk
  obtain rfl : wordType signed = t := by
    rw [hdtype] at ht
    cases signed <;> exact Option.some.inj ht
  refine ⟨rfl, hstorage, hparams, ?_⟩
  obtain ⟨all, y, hall, hy, hrun⟩ := runSteps_single hvalid.steps_ne_nil (by simpa [hcount] using hvalid.steps)
    (unaryTotal_of_stepStmts hdtype hstmts) old hdivides
  exact ⟨y, hrun, fun memory idx hmemory hout => invoke?_programKernel hdtype hk hcount hall hy hmemory hout⟩

/-- The least integer divided by `-1`, multiplied with itself and added to `-1`, without sign: the kernel and the
host both get `1`. -/
theorem invocation_eq_runSteps_least :
    let p : Program := ⟨.int32, 2, [⟨.elementwise (.binary .div), [.input 0, .input 1]⟩,
      ⟨.elementwise .fusedMulAdd, [.step 0, .input 0, .input 1]⟩, ⟨.elementwise (.unary .abs), [.step 1]⟩]⟩
    let least : IntWord ⟨32, true⟩ := .ofInt (-2147483648)
    let memory : Memory := fun slot =>
      if slot = 0 then #[.i32 (-2147483648)] else if slot = 1 then #[.i32 (-1)] else #[.i32 0]
    ∃ k, programKernel p 64 = .ok k ∧ k.params.slot = 3 ∧
      runSteps #[.apart #[least], .apart #[.ofInt (-1)]] #[least] #[] p.steps = (#[.ofInt 1], none) ∧
      k.invoke? memory 0 = some (memory.set 2 0 (.i32 1)) := by
  intro p least memory
  let k := (programKernel p 64).toOption.get (by decide +kernel)
  have hk : programKernel p 64 = .ok k := eq_ok_of_toOption (Option.some_get _).symm
  have hrun : runSteps #[.apart #[least], .apart #[.ofInt (-1)]] #[least] #[] p.steps = (#[.ofInt 1], none) := by
    decide +kernel
  obtain ⟨-, -, hslot, y, hy, hinvoke⟩ := invocation_eq_runSteps p true rfl 64 k hk [least, .ofInt (-1)] rfl least
    (fun i hi => nomatch (congrArg Prod.snd hrun).symm.trans hi)
  obtain rfl : y = .ofInt 1 := by simpa using (congrArg Prod.fst hy).symm.trans (congrArg Prod.fst hrun)
  refine ⟨k, hk, hslot, hrun, hinvoke memory 0 ?_ (by decide)⟩
  -- there are two inputs
  intro i x hx
  match i, hx with
  | 0, rfl => rfl
  | 1, rfl => rfl

end LazyTensor.Shader
