import LazyTensor.Proofs.Host.Reach

/-!
# Fused programs and their steps one at a time

A fused operation runs all steps of its program in one kernel, range by range, and may write into one of its
inputs. Its steps can also be executed as operations of their own, each into a new buffer. Both succeed for the
same inputs, and then their last results are equal, unless elements have 16 bits: between two operations these are
rounded, and within a kernel they are not.
-/

namespace LazyTensor

open List Option

/-! ## Operands of steps -/

/-- What an operand stands for, given what the program inputs and the results of earlier steps do. -/
def Operand.pick? {β : Type} (inputs results : List β) : Operand → Option β
  | .input i => inputs[i.toNat]?
  | .step i => results[i.toNat]?

def Step.operation (s : Step) : Operation :=
  match s.kind with
  | .elementwise e => .elementwise e
  | kind => .other kind

namespace HostM

/-- Executes steps one after the other as operations of their own, given the results of earlier ones. No buffer is
given away, so each has a new one. -/
def stepwise (inputs : List BufferRef) (output : Shape) :
    (results : List BufferRef) → List Step → HostM HostError (List BufferRef)
  | results, [] => return results
  | results, s :: steps => do
    let operands := s.operands.map fun o => (o.pick? inputs results).getD .absent
    let out ← execute s.operation operands (operands.map fun _ => false) output
    stepwise inputs output (results ++ [.host out]) steps

end HostM

/-! ## Elements of steps -/

theorem mapM_of_mapM {α β γ : Type} {f : α → Option β} {l : List α} {ys : List β} (h : l.mapM f = some ys)
    (g : β → Option γ) : ys.mapM g = l.mapM fun a => (f a).bind g := by
  rw [mapM_eq_some_iff] at h
  have hbind : (fun a => (f a).bind g) = (·.bind g) ∘ f := rfl
  rw [hbind, ← mapM_map, h, mapM_map]
  rfl

namespace Kernel

variable {t : ElementType} {data results : List (Array t.Elem)} {i : Nat} {column : Array t.Lane} {s : Step}

/-- The elements at an index of results, as the words to compute with. -/
abbrev ElementColumn (results : List (Array t.Elem)) (i : Nat) (column : Array t.Lane) : Prop :=
  Column (results.map (·.map t.widen)).toArray i column

/-- The program inputs at an index, as the words to compute with. -/
abbrev elementLane (data : List (Array t.Elem)) (i k : Nat) : Option t.Lane := (lane data.toArray i k).map t.widen

theorem ElementColumn.push (hcolumn : ElementColumn results i column) (hhalf : t.isHalf = false) {y : Array t.Elem}
    {b : t.Lane} (hb : y[i]? = some (t.narrow b)) : ElementColumn (results ++ [y]) i (column.push b) := by
  have hlane : (y.map t.widen)[i]? = some b := by
    rw [Array.getElem?_map, hb]
    exact congrArg some (congrFun (ElementType.widen_comp_narrow hhalf) b)
  have hpush := Column.push hcolumn hlane
  rwa [push_toArray, ← map_singleton, ← map_append] at hpush

theorem programAt_step {odata : List (Array t.Elem)} {e : Elementwise} (hkind : s.kind = .elementwise e)
    (harity : s.operands.length = s.kind.arity) (hodata : s.operands.mapM (Operand.pick? data results) = some odata)
    (hcolumn : ElementColumn results i column) (dtype : DType) :
    programAt t (.single (.elementwise e) dtype) odata.toArray i =
      (stepAt (elementLane data i) column s).map t.narrow := by
  have hlength : odata.length = e.arity := by
    have hlen := congrArg List.length (mapM_eq_some_iff.mp hodata)
    rw [length_map, length_map, harity, hkind] at hlen
    exact hlen.symm
  have hlane : (fun k => (lane odata.toArray i k).map t.widen) =
      fun k => odata[k]?.bind fun x => x[i]?.map t.widen := by
    funext k
    simp only [lane, getElem?_toArray]
    cases odata[k]? <;> rfl
  rw [programAt, hlane, resultsAt_single _ dtype hlength, mapM_of_mapM hodata, stepAt, hkind]
  -- an operand comes from the same place, an input or the result of an earlier step
  congr 2
  apply mapM_congr
  intro o _
  cases o with
  | input k =>
    simp only [Operand.pick?, operandAt, elementLane, lane, getElem?_toArray]
    cases data[k.toNat]? <;> rfl
  | step k =>
    rw [operandAt, hcolumn.get]
    simp only [Operand.pick?, lane, getElem?_toArray, getElem?_map]
    cases results[k.toNat]? <;> simp

end Kernel

/-! ## The steps one at a time -/

/-- Elements of a type with their shape. -/
def Value.ofElements {t : ElementType} (shape : Shape) (data : Array t.Elem) : Value := ⟨shape, .ofElements t data⟩

namespace HostM

open HostState Kernel

variable {s : HostState} {output : Shape} {t : ElementType} {ids rids : List Nat} {data results : List (Array t.Elem)}
  {p : Program}

theorem mapM_as?_ofElements (output : Shape) (data : List (Array t.Elem)) :
    (data.map (Value.ofElements output)).mapM (fun v => v.flat.as? t) = some data := by
  rw [mapM_eq_some_iff, List.map_map]
  apply map_congr_left
  intro x _
  exact Flat.as?_ofElements t x

theorem exists_holds_elements (hs : s.Sound) (ht : output.dtype.element? = some t)
    (hids : ∀ id ∈ ids, ∃ b, s.Live id b ∧ b.shape = output) :
    ∃ data : List (Array t.Elem), Holds s ids (data.map (Value.ofElements output)) := by
  induction ids with
  | nil => exact ⟨[], .nil⟩
  | cons id ids ih =>
    obtain ⟨data, hdata⟩ := ih fun id' hid => hids id' (.tail _ hid)
    obtain ⟨⟨shape, flat, finalized⟩, hb, rfl⟩ := hids id (.head _)
    obtain rfl : finalized = false := hb.2
    obtain ⟨x, hx, -⟩ := Live.elements (v := ⟨shape, flat⟩) hb hs ht
    obtain rfl : flat = .ofElements t x := hx
    exact ⟨x :: data, .cons hb hdata⟩

theorem exists_operands {operands : List Operand} (hvalid : ∀ o ∈ operands, o.ValidAt data.length results.length)
    (hin : Holds s ids (data.map (Value.ofElements output)))
    (hresults : Holds s rids (results.map (Value.ofElements output))) :
    ∃ oids odata, (operands.map fun o => (o.pick? (ids.map BufferRef.host) (rids.map .host)).getD .absent) =
        oids.map .host ∧ operands.mapM (Operand.pick? data results) = some odata ∧
      Holds s oids (odata.map (Value.ofElements output)) := by
  have hget : ∀ {ids : List Nat} {data : List (Array t.Elem)} {k : Nat},
      Holds s ids (data.map (Value.ofElements output)) → k < data.length →
      ∃ id x, ids[k]? = some id ∧ data[k]? = some x ∧ s.Live id (Value.ofElements output x).buffer := by
    intro ids data k h hk
    have hx := getElem?_eq_getElem hk
    obtain ⟨id, hid, hlive⟩ := h.exists_getElem?
      (by rw [getElem?_map, hx]; rfl)
    exact ⟨id, data[k], hid, hx, hlive⟩
  induction operands with
  | nil => exact ⟨[], [], rfl, rfl, .nil⟩
  | cons o operands ih =>
    obtain ⟨oids, odata, hrefs, hodata, hholds⟩ := ih fun o ho => hvalid o (.tail _ ho)
    -- a valid operand is an input or an earlier result, and both are held
    obtain ⟨id, x, hid, hx, hlive⟩ : ∃ id x, o.pick? ids rids = some id ∧ o.pick? data results = some x ∧
        s.Live id (Value.ofElements output x).buffer := by
      have ho := hvalid o (.head _)
      cases o with
      | input k =>
        simp only [Operand.ValidAt] at ho
        exact hget hin (by omega)
      | step k =>
        simp only [Operand.ValidAt] at ho
        exact hget hresults (by omega)
    have href : o.pick? (ids.map BufferRef.host) (rids.map .host) = some (.host id) := by
      cases o with
      | input k | step k =>
        simp only [Operand.pick?] at hid ⊢
        rw [getElem?_map, hid, map_some]
    refine ⟨id :: oids, x :: odata, ?_, ?_, .cons hlive hholds⟩
    · rw [map_cons, map_cons, hrefs, href, getD_some]
    · simp [hx, hodata]

section Steps

variable {l : Layout} (ht : output.dtype.element? = some t) (hlayout : Layout.make output.dtype output.size = .ok l)

include ht hlayout

theorem value?_program {op : Operation} (hop : op.program? output.dtype = some p) (data : List (Array t.Elem)) :
    op.value? (data.map (Value.ofElements output)) output =
      (programTable? t p data.toArray l.size).map (.ofElements t) := by
  rw [value?_eq ht hlayout, Operation.elements?_of_program? hop, Operation.programElements?, mapM_as?_ofElements]
  rfl

/-- What the execution of a program gives: the table of its elements, and it fails if there is none. -/
theorem execute_program (hs : s.Sound) (hlimit : s.host.account.limit = 0) (hfinalized : s.host.finalized = false)
    (op : Operation) (hop : op.program? output.dtype = some p) (hp : p.Valid) (hdtype : p.dtype = output.dtype)
    (hin : Holds s ids (data.map (Value.ofElements output))) (hcount : p.numInputs = ids.length) (owned : List Bool) :
    (∃ out s' y gave, exec (execute op (ids.map .host) owned output) s = (.ok out, s') ∧
      Made s gave output out s' (.ofElements t y) ∧ programTable? t p data.toArray l.size = some y ∧
      ((∀ own ∈ owned, own = false) → gave = [])) ∨
    (∃ e s', exec (execute op (ids.map .host) owned output) s = (.error e, s') ∧
      programTable? t p data.toArray l.size = none) := by
  have hshape : ∀ v ∈ data.map (Value.ofElements output), v.shape = output := by
    intro v hv
    obtain ⟨x, -, rfl⟩ := List.mem_map.mp hv
    rfl
  have hvalue := value?_program ht hlayout hop data
  obtain ⟨gave, r, hran, hexec, hgave⟩ :=
    ran_execute_program hs hfinalized hin hop hp hdtype hcount hshape ht owned
  rw [hexec]
  cases hran with
  | error e s' _ _ _ hcause =>
    refine .inr ⟨_, s', rfl, ?_⟩
    -- without a limit of memory, only a missing element stops the program
    rcases hcause with hreached | hcause
    · exact absurd hlimit hreached.1
    · rw [hcause.1] at hvalue
      exact map_eq_none_iff.mp hvalue.symm
  | ok out s' flat hmade hright =>
    have hskips : op.skipsOutput ((data.map (Value.ofElements output)).map (·.shape)) output = false := by
      cases op with
      | matMul => cases hop
      | _ => rfl
    rw [hright hskips] at hvalue
    obtain ⟨y, hy, rfl⟩ := map_eq_some_iff.mp hvalue.symm
    exact .inl ⟨out, s', y, gave, rfl, hmade, hy, hgave⟩

end Steps

/-- What steps one at a time may give: buffers of their results, among them those of earlier steps, and the new ones
are none that were live; or a failure, and then the steps fail at an index. -/
inductive Stepped (s : HostState) (output : Shape) (n : Nat) (data results : List (Array t.Elem)) (rids : List Nat)
    (steps : List Step) : Except HostError (List BufferRef) × HostState → Prop where
  | error (e : HostError) (s' : HostState)
    (fails : ∃ i : Nat, i < n ∧ ∀ column, ElementColumn results i column →
      resultsAt (elementLane data i) column steps = none) : Stepped s output n data results rids steps (.error e, s')
  | ok (rids' : List Nat) (s' : HostState) (results' : List (Array t.Elem))
    (length : results'.length = results.length + steps.length) (sizes : ∀ x ∈ results', x.size = n)
    (holds : Holds s' rids' (results'.map (Value.ofElements output)))
    (fresh : ∀ id ∈ rids', id ∈ rids ∨ ∀ b, ¬ s.Live id b)
    (columns : ∀ (i : Nat) (column : Array t.Lane), i < n → ElementColumn results i column →
      ∃ column', resultsAt (elementLane data i) column steps = some column' ∧ ElementColumn results' i column') :
    Stepped s output n data results rids steps (.ok (rids'.map .host), s')

/-- One more step before the others: its result is in a new buffer, and the others go on from there. -/
theorem Stepped.cons {s' : HostState} {n out : Nat} {y : Array t.Elem} {u : Step} {steps : List Step}
    {r : Except HostError (List BufferRef) × HostState} (hframe : Frame s s' []) (hfresh : ∀ b, ¬ s.Live out b)
    (hnext : ∀ (i : Nat) (column : Array t.Lane), i < n → ElementColumn results i column →
      ∃ b, stepAt (elementLane data i) column u = some b ∧ ElementColumn (results ++ [y]) i (column.push b))
    (h : Stepped s' output n data (results ++ [y]) (rids ++ [out]) steps r) :
    Stepped s output n data results rids (u :: steps) r := by
  cases h with
  | error err s'' hfails =>
    obtain ⟨i, hi, hnone⟩ := hfails
    refine .error err s'' ⟨i, hi, fun column hcolumn => ?_⟩
    obtain ⟨b, hb, hcolumn'⟩ := hnext i column hi hcolumn
    rw [resultsAt, hb, bind_some, hnone _ hcolumn']
  | ok rids' s'' results' hlength hsizes hholds hfresh' hcolumns =>
    refine .ok rids' s'' results' ?_ hsizes hholds (fun id hid => ?_) fun i column hi hcolumn => ?_
    · rw [hlength, length_append, length_singleton, length_cons]
      omega
    · -- a buffer is one of the earlier results, the new one, or made later
      rcases hfresh' id hid with hold | hnew
      · rcases mem_append.mp hold with hold | hout
        · exact .inl hold
        · rw [mem_singleton.mp hout]
          exact .inr hfresh
      · exact .inr fun b hb => hnew b (hframe.live _ _ hb not_mem_nil)
    · obtain ⟨b, hb, hcolumn'⟩ := hnext i column hi hcolumn
      rw [resultsAt, hb]
      exact hcolumns i _ hi hcolumn'

/-- The steps of a program, executed one by one, compute its results at every index, or one of them fails. -/
theorem stepped_stepwise {l : Layout} (ht : output.dtype.element? = some t) (hhalf : t.isHalf = false)
    (hlayout : Layout.make output.dtype output.size = .ok l) {steps : List Step} (hs : s.Sound)
    (hlimit : s.host.account.limit = 0) (hfinalized : s.host.finalized = false)
    (hin : Holds s ids (data.map (Value.ofElements output)))
    (hresults : Holds s rids (results.map (Value.ofElements output))) (hsizes : ∀ x ∈ results, x.size = l.size)
    (hvalid : ∀ (j : Nat) (u : Step), steps[j]? = some u → u.ValidAt data.length (results.length + j)) :
    Stepped s output l.size data results rids steps
      (exec (stepwise (ids.map .host) output (rids.map .host) steps) s) := by
  induction steps generalizing s rids results with
  | nil =>
    exact .ok rids s results rfl hsizes hresults (fun _ h => .inl h) fun i column _ hcolumn => ⟨column, rfl, hcolumn⟩
  | cons u steps ih =>
    have hu : u.ValidAt data.length results.length := hvalid 0 u rfl
    obtain ⟨e, hkind⟩ := OpKind.exists_elementwise hu.elementwise
    have hoperation : u.operation = .elementwise e := by rw [Step.operation, hkind]
    obtain ⟨oids, odata, hrefs, hodata, hholds⟩ := exists_operands hu.operands hin hresults
    have hcount : (Program.single (.elementwise e) output.dtype).numInputs = oids.length := by
      have hlength := congrArg List.length (mapM_eq_some_iff.mp hodata)
      rw [length_map, length_map, hu.arity, hkind] at hlength
      rw [hholds.length_eq, length_map, ← hlength]
      rfl
    have hstep := execute_program ht hlayout hs hlimit hfinalized (.elementwise e) rfl (Program.single_valid e _)
      rfl hholds hcount ((oids.map BufferRef.host).map fun _ => false)
    have hpoint : ∀ (i : Nat) (column : Array t.Lane), ElementColumn results i column →
        programAt t (.single (.elementwise e) output.dtype) odata.toArray i =
          (stepAt (elementLane data i) column u).map t.narrow := fun i column hcolumn =>
      programAt_step hkind hu.arity hodata hcolumn output.dtype
    rw [stepwise]
    simp only [hrefs, hoperation]
    rcases hstep with ⟨out, s', y, gave, hexec, hmade, htable, hgave⟩ | ⟨err, s', hexec, htable⟩
    · obtain rfl := hgave (by simp)
      obtain ⟨hysize, hy⟩ := table?_eq_some_iff.mp htable
      have hfresh : ∀ b, ¬ s.Live out b := fun b hb => hmade.fresh hb rfl
      have hframe : Frame s s' [] := (Frame.refl s []).trans_fresh hmade.frame hfresh
      have hresults' : Holds s' (rids ++ [out]) ((results ++ [y]).map (Value.ofElements output)) := by
        rw [map_append]
        exact (hresults.frame hframe nofun).append (.cons hmade.live .nil)
      have hrest := ih hmade.sound (hframe.limit_eq.trans hlimit) (hframe.finalized_eq.trans hfinalized)
        (hin.frame hframe nofun) hresults' (by simpa [or_imp, forall_and] using ⟨hsizes, hysize⟩)
        (by rw [length_append]; exact Program.validAt_tail hvalid)
      -- one more element at an index
      have hnext : ∀ (i : Nat) (column : Array t.Lane), i < l.size → ElementColumn results i column →
          ∃ b, stepAt (elementLane data i) column u = some b ∧ ElementColumn (results ++ [y]) i (column.push b) := by
        intro i column hi hcolumn
        have hget := hy i hi
        rw [hpoint i column hcolumn, Array.getElem?_eq_getElem (by omega)] at hget
        obtain ⟨b, hb, hnarrow⟩ := map_eq_some_iff.mp hget.symm
        refine ⟨b, hb, hcolumn.push hhalf ?_⟩
        rw [hnarrow, Array.getElem?_eq_getElem (by omega)]
      rw [exec_bind_ok hexec, ← map_singleton, ← map_append]
      exact hrest.cons hframe hfresh hnext
    · rw [exec_bind_error hexec]
      refine .error err s' ?_
      obtain ⟨i, hi, hnone⟩ := table?_eq_none_iff.mp htable
      refine ⟨i, hi, fun column hcolumn => ?_⟩
      rw [hpoint i column hcolumn, map_eq_none_iff] at hnone
      rw [resultsAt, hnone, bind_none]

/-- The last result of the steps is the table of the program, which has none if they fail. -/
theorem Stepped.programTable? {n : Nat} (hhalf : t.isHalf = false) {r : Except HostError (List BufferRef) × HostState}
    (h : Stepped s output n data [] [] p.steps r) :
    match r.1 with
    | .error _ => Kernel.programTable? t p data.toArray n = none
    | .ok refs => p.steps ≠ [] → ∃ last y, refs.getLast? = some (.host last) ∧
        r.2.Live last (Value.ofElements output y).buffer ∧ Kernel.programTable? t p data.toArray n = some y := by
  have hcolumn : ∀ i : Nat, ElementColumn ([] : List (Array t.Elem)) i #[] := fun i => ⟨rfl, fun k => by simp [lane]⟩
  cases h with
  | error e s' hfails =>
    obtain ⟨i, hi, hnone⟩ := hfails
    refine table?_eq_none_iff.mpr ⟨i, hi, ?_⟩
    rw [programAt, hnone _ (hcolumn i), bind_none, map_none]
  | ok rids' s' results' hlength hsizes hholds _ hcolumns =>
    intro hne
    -- the last of the results
    obtain ⟨y, hy⟩ : ∃ y, results'[results'.length - 1]? = some y := by
      have hpos := length_pos_iff.mpr hne
      exact ⟨_, getElem?_eq_getElem (by omega)⟩
    obtain ⟨last, hid, hlive⟩ := hholds.exists_getElem?
      (by rw [getElem?_map, hy]; rfl)
    have hlast : (rids'.map BufferRef.host).getLast? = some (.host last) := by
      rw [getLast?_eq_getElem?, length_map, hholds.length_eq, length_map, getElem?_map, hid]
      rfl
    refine ⟨last, y, hlast, hlive, ?_⟩
    rw [Kernel.programTable?, table?_eq_some_iff]
    refine ⟨hsizes y (mem_of_getElem? hy), fun i hi => ?_⟩
    obtain ⟨column, hall, hcolumn'⟩ := hcolumns i #[] hi (hcolumn i)
    have hback : column.back? = y[i]?.map t.widen := by
      rw [Array.back?, hcolumn'.get, hcolumn'.size_eq]
      simp [lane, hy]
    rw [programAt, hall, bind_some, hback, Option.map_map, ElementType.narrow_comp_widen hhalf, Option.map_id,
      id_eq]

end HostM

/-! ## Both ways from a state of the host -/

namespace HostState

open HostM

/-- Whatever host was configured without a limit of memory, and whatever was called before: a fused operation on
buffers of one shape succeeds if and only if its steps do that are executed one at a time into new buffers, and then
its output has the elements of their last result. It does not matter which inputs are given away, so that the output is
a new buffer or one of them, and whether a buffer stands for several inputs. -/
theorem fused_eq_stepwise (configuration : String) (host : Host) (hhost : Host.ofConfiguration configuration = .ok host)
    (hlimit : host.account.limit = 0) (calls : List HostCall) (p : Program) (hp : p.validate = .ok ())
    (t : ElementType) (ht : p.dtype.element? = some t) (hhalf : t.isHalf = false) (dims : List Int) (ids : List Nat)
    (hcount : (ids.length : Int) = p.numInputs)
    (hids : ∀ id ∈ ids, ∃ b, (run ⟨host, {}⟩ calls).Live id b ∧ b.shape = ⟨p.dtype, dims⟩) (owned : List Bool) :
    let s := run ⟨host, {}⟩ calls
    let once := exec (execute (.fused (some p)) (ids.map .host) owned ⟨p.dtype, dims⟩) s
    let steps := exec (stepwise (ids.map .host) ⟨p.dtype, dims⟩ [] p.steps) s
    once.1.isOk = steps.1.isOk ∧
    ∀ out results, once.1 = .ok out → steps.1 = .ok results →
      (∀ id b, .host id ∈ results → ¬ s.Live id b) ∧
      ∃ last b, results.getLast? = some (.host last) ∧ once.2.Live out b ∧ steps.2.Live last b ∧
        b.shape = ⟨p.dtype, dims⟩ := by
  intro s once steps
  have hintact : Intact host.account.limit s := intact_run calls ⟨sound_configured hhost, rfl⟩
  have hvalid := Program.validate_eq_ok_iff.mp hp
  cases hfinalized : s.host.finalized with
  | true =>
    -- nothing is executed any more
    have honce : once = (.error .finalized, s) := exec_execute_finalized hfinalized _ _ _ _
    have hsteps : steps = (.error .finalized, s) := by
      obtain ⟨u, rest, hcons⟩ := List.exists_cons_of_ne_nil hvalid.steps_ne_nil
      show exec (HostM.stepwise _ _ [] p.steps) s = _
      rw [hcons, HostM.stepwise]
      exact exec_bind_error (exec_execute_finalized hfinalized _ _ _ _)
    rw [honce, hsteps]
    exact ⟨rfl, nofun⟩
  | false =>
    have hlimit' : s.host.account.limit = 0 := hintact.limit_eq.trans hlimit
    obtain ⟨data, hin⟩ := exists_holds_elements hintact.sound ht hids
    obtain ⟨l, hlayout⟩ : ∃ l, Layout.make p.dtype (Shape.size ⟨p.dtype, dims⟩) = .ok l := by
      have hpos := hvalid.numInputs_pos
      obtain ⟨id, hid⟩ := List.exists_mem_of_length_pos (l := ids) (by omega)
      obtain ⟨b, hb, hshape⟩ := hids id hid
      obtain ⟨l, hl, -⟩ := hintact.sound.buffers id b hb.1
      rw [hshape] at hl
      exact ⟨l, hl⟩
    have hlength : (data.length : Int) = p.numInputs := by
      rw [← hcount, hin.length_eq, List.length_map]
    have hstepped : Stepped s ⟨p.dtype, dims⟩ l.size data [] [] p.steps steps := by
      apply stepped_stepwise ht hhalf hlayout hintact.sound hlimit' hfinalized hin .nil (by simp)
      intro j u hu
      rw [hlength, List.length_nil, Nat.zero_add]
      exact hvalid.steps j u hu
    have htable := hstepped.programTable? hhalf
    rcases execute_program ht hlayout hintact.sound hlimit' hfinalized (.fused (some p)) rfl hvalid rfl hin hcount.symm
      owned with ⟨out, s', y, gave, hexec, hmade, hy, -⟩ | ⟨e, s', hexec, hnone⟩
    · rw [show once = (.ok out, s') from hexec]
      rcases hsteps : steps with ⟨e | refs, s''⟩
      · rw [hsteps, hy] at htable
        exact nomatch htable
      · rw [hsteps] at htable hstepped
        obtain ⟨last, y', hlast, hlive, hy'⟩ := htable hvalid.steps_ne_nil
        obtain rfl := Option.some.inj (hy.symm.trans hy')
        refine ⟨rfl, ?_⟩
        rintro _ _ ⟨⟩ ⟨⟩
        refine ⟨fun id b hid => ?_, last, _, hlast, hmade.live, hlive, rfl⟩
        cases hstepped with
        | ok rids' _ _ _ _ _ hfresh _ =>
          obtain ⟨_, hmem, ⟨⟩⟩ := List.mem_map.mp hid
          exact (hfresh id hmem).resolve_left nofun b
    · rw [show once = (.error e, s') from hexec]
      rcases hsteps : steps with ⟨e' | refs, s''⟩
      · exact ⟨rfl, nofun⟩
      · rw [hsteps, hnone] at htable
        obtain ⟨_, _, _, _, hsome⟩ := htable hvalid.steps_ne_nil
        exact nomatch hsome

/-- Two workers compute `x * x - x` in place, with one buffer for both inputs. -/
theorem fused_in_place :
    let x : Shape := ⟨.int32, [3]⟩
    let p : Program := ⟨.int32, 2, [⟨.elementwise (.binary .mul), [.input 0, .input 1]⟩,
      ⟨.elementwise (.binary .sub), [.step 0, .input 0]⟩]⟩
    let calls : List HostCall := [.execute (.arange (.ofInt 2) (.ofInt 1)) [] [] x]
    ∃ host, Host.ofConfiguration "parallelism=2,minparallel=1" = .ok host ∧
      let s := run ⟨host, {}⟩ calls
      let once := exec (execute (.fused (some p)) [.host 0, .host 0] [true, false] x) s
      let steps := exec (stepwise [.host 0, .host 0] x [] p.steps) s
      once.1.toOption = some 0 ∧ steps.1.toOption = some [.host 1, .host 2] ∧
      ∃ b, once.2.Live 0 b ∧ steps.2.Live 2 b := by
  intro x p calls
  let host := (Host.ofConfiguration "parallelism=2,minparallel=1").toOption.get (by decide +kernel)
  have hhost : Host.ofConfiguration "parallelism=2,minparallel=1" = .ok host :=
    eq_ok_of_toOption (Option.some_get _).symm
  have hlimit : host.account.limit = 0 := by decide +kernel
  have hlive : ((run ⟨host, {}⟩ calls).heap.get? 0).any (fun b => !b.finalized && b.shape == x) = true := by
    decide +kernel
  have honce : (exec (execute (.fused (some p)) [.host 0, .host 0] [true, false] x)
      (run ⟨host, {}⟩ calls)).1.toOption = some 0 := by decide +kernel
  have hsteps : (exec (stepwise [.host 0, .host 0] x [] p.steps) (run ⟨host, {}⟩ calls)).1.toOption =
      some [.host 1, .host 2] := by decide +kernel
  obtain ⟨b, hb, hshape⟩ := (Option.any_eq_true _ _).mp hlive
  rw [Bool.and_eq_true, Bool.not_eq_true', beq_iff_eq] at hshape
  obtain ⟨-, hequal⟩ := fused_eq_stepwise "parallelism=2,minparallel=1" host hhost hlimit calls p rfl .int32 rfl rfl [3]
    [0, 0] rfl (by simpa using ⟨b, ⟨hb, hshape.1⟩, hshape.2⟩) [true, false]
  obtain ⟨-, last, c, hlast, hout, hresult, -⟩ := hequal 0 _ (eq_ok_of_toOption honce) (eq_ok_of_toOption hsteps)
  obtain ⟨⟩ := hlast
  exact ⟨host, hhost, honce, hsteps, c, hout, hresult⟩

end HostState

end LazyTensor
