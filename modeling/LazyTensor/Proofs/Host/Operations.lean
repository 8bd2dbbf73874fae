import LazyTensor.Proofs.Graph.Rules
import LazyTensor.Proofs.Host.Memory
import LazyTensor.Proofs.Value

/-!
# Operations on the host compute values

Each operation whose operands have the right shapes gives a buffer with its value, whatever the workers are
and whatever was in the buffer before, and whether the buffer is new or one of the inputs. Nothing else is
written. Without a limit of memory it only fails if it has no value. Here are tables, casts, transpositions
and programs.
-/

namespace LazyTensor

open List Option

/-- The live buffer of a value. -/
def Value.buffer (v : Value) : HostBuffer := ⟨v.shape, v.flat, false⟩

variable {id : Nat} {v : Value} {x : Shape}

namespace HostState

/-- Live buffers that have these values. -/
inductive Holds (s : HostState) : List Nat → List Value → Prop where
  | nil : Holds s [] []
  | cons {id : Nat} {ids : List Nat} {v : Value} {values : List Value} (live : s.Live id v.buffer)
    (rest : Holds s ids values) : Holds s (id :: ids) (v :: values)

variable {s s' : HostState} {ids : List Nat} {values : List Value}

theorem Live.elements (h : s.Live id v.buffer) (hs : s.Sound) {t : ElementType} (ht : v.shape.dtype.element? = some t) :
    ∃ data : Array t.Elem, v.flat = .ofElements t data ∧ (data.size : Int) = v.shape.size := by
  obtain ⟨data, hdata, hsize, -⟩ := (hs.buffers id _ h.1).exists_elements ht
  exact ⟨data, hdata, hsize⟩

section

variable (h : Holds s ids values)

include h

theorem Holds.length_eq : ids.length = values.length := by
  induction h with
  | nil => rfl
  | cons _ _ ih => rw [length_cons, length_cons, ih]

theorem Holds.of_shapes_nil (hshapes : values.map (·.shape) = []) : ids = [] ∧ values = [] := by
  cases h with
  | nil => exact ⟨rfl, rfl⟩
  | cons => cases hshapes

theorem Holds.of_shapes_cons {shapes : List Shape} (hshapes : values.map (·.shape) = x :: shapes) :
    ∃ id ids' v values', ids = id :: ids' ∧ values = v :: values' ∧ s.Live id v.buffer ∧ v.shape = x ∧
      Holds s ids' values' ∧ values'.map (·.shape) = shapes := by
  cases h with
  | nil => cases hshapes
  | @cons id ids v values hlive hrest =>
    obtain ⟨hx, htail⟩ := List.cons.inj hshapes
    exact ⟨id, ids, v, values, rfl, rfl, hlive, hx, hrest, htail⟩

theorem Holds.append {ids' : List Nat} {values' : List Value} (h' : Holds s ids' values') :
    Holds s (ids ++ ids') (values ++ values') := by
  induction h with
  | nil => exact h'
  | cons hlive _ ih => exact .cons hlive ih

theorem Holds.exists_getElem? {k : Nat} (hv : values[k]? = some v) :
    ∃ id : Nat, ids[k]? = some id ∧ s.Live id v.buffer := by
  induction h generalizing k with
  | nil => cases hv
  | @cons id ids w values hlive _ ih =>
    cases k with
    | zero =>
      obtain rfl : w = v := Option.some.inj hv
      exact ⟨id, rfl, hlive⟩
    | succ k => exact ih hv

theorem Holds.sound (hs : s.Sound) : ∀ v ∈ values, v.buffer.Sound := by
  induction h with
  | nil => exact nofun
  | cons hlive _ ih =>
    intro v hv
    rcases mem_cons.mp hv with rfl | hv
    · exact hs.buffers _ _ hlive.1
    · exact ih v hv

theorem Holds.frame {written : List Nat} (hframe : Frame s s' written)
    (hids : ∀ id ∈ ids, id ∉ written) : Holds s' ids values := by
  induction h with
  | nil => exact .nil
  | cons hlive _ ih =>
    exact .cons (hframe.live _ _ hlive (hids _ (.head _)))
      (ih fun id hid => hids id (.tail _ hid))

end

/-- References to live buffers of these shapes. -/
def LiveOf (s : HostState) (refs : List BufferRef) (shapes : List Shape) : Prop :=
  refs.map (fun ref => (s.heap.live ref).toOption.map (·.2.shape)) = shapes.map some

instance (s : HostState) (refs : List BufferRef) (shapes : List Shape) : Decidable (s.LiveOf refs shapes) :=
  inferInstanceAs (Decidable (_ = _))

theorem LiveOf.exists_holds {refs : List BufferRef} {shapes : List Shape} (h : s.LiveOf refs shapes) :
    ∃ (ids : List Nat) (values : List Value), refs = ids.map .host ∧ Holds s ids values ∧
      values.map (·.shape) = shapes := by
  induction refs generalizing shapes with
  | nil =>
    obtain rfl := map_eq_nil_iff.mp h.symm
    exact ⟨[], [], rfl, .nil, rfl⟩
  | cons ref refs ih =>
    cases shapes with
    | nil => cases h
    | cons shape shapes =>
      obtain ⟨hhead, htail⟩ := List.cons.inj h
      obtain ⟨ids, values, hrefs, hin, hshapes⟩ := ih htail
      obtain ⟨⟨id, b⟩, hfound, hshape⟩ := map_eq_some_iff.mp hhead
      have hlive := eq_ok_of_toOption hfound
      obtain ⟨rfl, hb⟩ : ref = .host id ∧ s.Live id b := by
        -- references to other backends are never live
        cases ref with
        | host j =>
          obtain ⟨rfl, hb⟩ := live_eq_ok hlive
          exact ⟨rfl, hb⟩
        | _ => cases hlive
      have hbuffer : s.Live id (Value.buffer ⟨shape, b.flat⟩) := by
        rwa [Value.buffer, ← hshape, ← hb.2]
      refine ⟨id :: ids, ⟨shape, b.flat⟩ :: values, ?_, .cons hbuffer hin, ?_⟩
      · rw [hrefs, map_cons]
      · rw [map_cons, hshapes]

end HostState

namespace HostM

open HostState

variable {s : HostState} {output : Shape} {t : ElementType}

/-! ## Small steps -/

section Fixed

variable {ε α β : Type} {x : HostM ε α}

/-- The step gives the same result in every state, and leaves the state as it is. -/
def Fixed (x : HostM ε α) : Prop := ∃ r, ∀ s, exec x s = (r, s)

theorem fixed_pure (a : α) : Fixed (pure a : HostM ε α) := ⟨_, fun _ => rfl⟩

theorem fixed_throw (e : ε) : Fixed (throw e : HostM ε α) := ⟨_, fun _ => rfl⟩

theorem Fixed.bind {f : α → HostM ε β} (hx : Fixed x) (hf : ∀ a, Fixed (f a)) : Fixed (x >>= f) := by
  obtain ⟨e | a, hx⟩ := hx
  · exact ⟨.error e, fun s => exec_bind_error (hx s)⟩
  · obtain ⟨r, hr⟩ := hf a
    exact ⟨r, fun s => by rw [exec_bind_ok (hx s), hr]⟩

theorem fixed_mapM {l : List α} {f : α → HostM ε β} (hf : ∀ a, Fixed (f a)) : Fixed (l.mapM f) := by
  induction l with
  | nil => exact fixed_pure []
  | cons a l ih =>
    rw [mapM_cons]
    exact (hf a).bind fun _ => ih.bind fun _ => fixed_pure _

theorem fixed_input (inputs : List BufferId) (i : Nat) : Fixed (input inputs i) := by
  unfold input
  split
  · exact fixed_pure _
  · exact fixed_throw _

theorem fixed_elementType (output : Shape) : Fixed (elementType output) := by
  unfold elementType
  split
  · exact fixed_pure _
  · exact fixed_throw _

theorem fixed_elements (t : ElementType) (b : HostBuffer) : Fixed (elements t b) := by
  unfold elements
  split
  · exact fixed_pure _
  · exact fixed_throw _

theorem fixed_source (t : ElementType) (out : BufferId) (operand : BufferId × HostBuffer) :
    Fixed (source t out operand) := (fixed_elements t operand.2).bind fun _ => fixed_pure _

theorem fixed_widened (b : HostBuffer) : Fixed (widened b) := by
  obtain ⟨shape, ⟨type, data⟩, finalized⟩ := b
  cases type with
  | inert u => exact fixed_throw _
  | element u =>
    cases u with
    | float16 | bfloat16 | float32 => exact fixed_pure _
    | _ => exact fixed_throw _

theorem fixed_checkFloatFault (fault : Option Kernel.FloatFault) : Fixed (checkFloatFault fault) := by
  unfold checkFloatFault
  split
  · exact fixed_pure _
  · exact fixed_throw _
  · exact fixed_throw _

end Fixed

theorem exec_elementType (ht : output.dtype.element? = some t) (s : HostState) :
    exec (elementType output) s = (.ok t, s) := by
  rw [elementType, ht]
  rfl

theorem exec_elements (t : ElementType) {b : HostBuffer} {data : Array t.Elem} (h : b.flat = .ofElements t data)
    (s : HostState) : exec (elements t b) s = (.ok data, s) := by
  rw [elements, h, Flat.as?_ofElements]
  rfl

theorem exec_input {inputs : List BufferId} {i : Nat} {id : BufferId} (h : inputs[i]? = some id) (s : HostState) :
    exec (input inputs i) s = (.ok id, s) := by
  rw [input, h]
  rfl

theorem covers_ranges (h : Host) {n : Int} {m : Nat} (hm : (m : Int) = n) : Covers (h.ranges n) m := by
  have hranges := Workers.covers_ranges h.workers n h.minParallel
  rwa [← hm, Int.toNat_natCast, hm] at hranges

theorem ran_newBuffer_bind (hs : s.Sound) {given : List Nat} {causes : Stop → Prop} {right : Flat → Prop}
    {next : BufferId → HostM Stop BufferId} (hcauses : ∀ e, NoLayout output e → causes e)
    (hnext : ∀ (out : Nat) (s' : HostState) (flat : Flat), Made s [] output out s' flat →
      Ran s given output causes right (exec (next out) s')) :
    Ran s given output causes right (exec (newBuffer output >>= next) s) := by
  rcases hr : exec (newBuffer output) s with ⟨r, s'⟩
  have hnew := ran_newBuffer hs output
  rw [hr] at hnew
  cases hnew with
  | error e _ hsound hframe hkept hcause =>
    rw [exec_bind_error hr]
    exact .error e s' hsound (hframe.mono nofun) hkept (hcause.imp_right (hcauses e))
  | ok out _ flat hmade _ =>
    rw [exec_bind_ok hr]
    exact hnext out s' flat hmade

/-! ## Tabulation -/

theorem ran_tabulate (hs : s.Sound) (ht : output.dtype.element? = some t)
    (value : (t : ElementType) → Nat → t.Elem) :
    Ran s [] output (NoLayout output)
      (fun flat => ∀ l, Layout.make output.dtype output.size = .ok l →
        flat = .ofElements t (Array.ofFn fun i : Fin l.size => value t i))
      (exec (tabulate output value) s) := by
  refine ran_newBuffer_bind hs (fun _ h => h) fun out s' flat hmade => ?_
  obtain ⟨data, rfl, hsize, hlayout⟩ := hmade.elements ht
  have htable : Kernel.tabulate (s'.host.ranges output.size) (value t) data =
      Array.ofFn fun i : Fin data.size => value t i :=
    Kernel.tabulate_eq_ofFn (value t) (covers_ranges s'.host hsize)
  rw [exec_bind_ok (exec_elementType ht s'), exec_bind_ok (exec_buffer hmade.live.1),
    exec_bind_ok (exec_elements t rfl s'), exec_bind_ok (exec_get s'), exec_bind_ok (exec_write hmade.live.1 _),
    htable]
  refine .ok out _ _ (hmade.put ht _ (by rwa [Array.size_ofFn])) fun l hl => ?_
  rw [hlayout] at hl
  obtain rfl := Except.ok.inj hl
  rfl

/-! ## Values of operations -/

/-- Why an operation has no value. -/
inductive Fails (op : Operation) (output : Shape) : Stop → Prop where
  | layout {e : Stop} (h : NoLayout output e) : Fails op output e
  | bounds (h : op.kind = .matMul ∨ op.kind = .transpose) : Fails op output (.rejected .outOfBounds)
  | division (p : Program) (hp : op.program? output.dtype = some p) (position : Nat) :
    Fails op output (.divisionByZero position)

/-- The operation has no value, for a reason. -/
def Causes (op : Operation) (values : List Value) (output : Shape) (e : Stop) : Prop :=
  op.value? values output = none ∧ Fails op output e

/-- The elements are the value of the operation, unless it leaves its output as it was. -/
def Right (op : Operation) (values : List Value) (output : Shape) (flat : Flat) : Prop :=
  op.skipsOutput (values.map (·.shape)) output = false → op.value? values output = some flat

variable {op : Operation} {values : List Value} {ids : List Nat} {p : Program} {permutation : List Int}

theorem value?_eq (ht : output.dtype.element? = some t) {l : Layout}
    (hl : Layout.make output.dtype output.size = .ok l) :
    op.value? values output = (op.elements? t values output l.size).map (.ofElements t) := by
  rw [Operation.value?, hl, ht]

theorem causes_layout {e : Stop} (h : NoLayout output e) : Causes op values output e := by
  refine ⟨?_, .layout h⟩
  obtain ⟨cause, hcause, -⟩ := h
  rw [Operation.value?, hcause]

theorem ran_table (hs : s.Sound) (ht : output.dtype.element? = some t) {value : (t : ElementType) → Nat → t.Elem}
    (hvalue : ∀ n, op.elements? t values output n = some (Array.ofFn fun i : Fin n => value t i)) :
    Ran s [] output (Causes op values output) (Right op values output) (exec (tabulate output value) s) := by
  refine (ran_tabulate hs ht value).imp (fun e => causes_layout) fun flat hflat hlayout _ => ?_
  obtain ⟨l, hl⟩ := hlayout
  rw [value?_eq ht hl, hflat l hl, hvalue]
  rfl

theorem ran_cast (hs : s.Sound) (ht : output.dtype.element? = some t) (hv : s.Live id v.buffer)
    (hsupported : v.shape.dtype.isSupported = true) (hdims : v.shape.dims = output.dims)
    (hdtype : v.shape.dtype ≠ output.dtype) (source : DType) :
    Ran s [] output (Causes (.cast source) [v] output) (Right (.cast source) [v] output)
      (exec (cast id output) s) := by
  obtain ⟨u, hu⟩ := isSome_iff_exists.mp hsupported
  obtain ⟨data, hdata, -⟩ := hv.elements hs hu
  have hbuffer : v.buffer.flat = ⟨.element u, data⟩ := hdata
  have hexec : exec (cast id output) s =
      exec (tabulate output fun t i => Kernel.castElement u t (data.getD i u.zero)) s := by
    rw [cast, exec_bind_ok (exec_buffer hv.1)]
    have hsame : ¬ v.buffer.shape.dims ≠ output.dims := fun h => h hdims
    have hother : ¬ v.buffer.shape.dtype = output.dtype := hdtype
    rw [if_neg hsame, if_neg hother, hbuffer]
    rfl
  rw [hexec]
  refine ran_table hs ht fun n => ?_
  rw [Operation.elements?, Operation.castElements?, hdata]
  rfl

/-! ## Transposition -/

theorem permutedStrides_eq (h : isPermutation x.rank permutation = true) :
    permutedStrides permutation x = some (permutation.map fun axis => x.strides.getD axis.toNat 0) := by
  rw [isPermutation, Bool.and_eq_true, List.all_eq_true] at h
  rw [permutedStrides, mapM_eq_some_iff, List.map_map]
  refine map_congr_left fun axis haxis => ?_
  have hbounds := h.1 axis haxis
  simp only [Bool.and_eq_true, decide_eq_true_eq] at hbounds
  have hlt : axis.toNat < x.strides.length := by
    rw [Shape.strides, Shape.length_stridesOf]
    show axis.toNat < x.rank
    omega
  rw [if_neg (by omega)]
  simp [getElem?_eq_getElem hlt]

theorem ran_transpose (hs : s.Sound) (ht : output.dtype.element? = some t) (hv : s.Live id v.buffer)
    (hshape : transposeShape v.shape permutation = .ok output) (hpos : ∀ d ∈ output.dims, 0 < d) :
    Ran s [] output (Causes (.transpose permutation) [v] output) (Right (.transpose permutation) [v] output)
      (exec (transpose permutation id output) s) := by
  obtain ⟨hlength, hperm, houtput⟩ := transposeShape_eq_ok hshape
  have hdtype : v.shape.dtype.element? = some t := by
    rwa [houtput] at ht
  have hrank : output.rank = v.shape.rank := by
    rw [houtput, Shape.rank, length_map, hlength]
  obtain ⟨src, hsrc, -⟩ := hv.elements hs hdtype
  obtain ⟨strides, hstrides⟩ : ∃ strides, permutedStrides permutation v.shape = some strides :=
    ⟨_, permutedStrides_eq hperm⟩
  have hvalue : ∀ n : Nat, (Operation.transpose permutation).elements? t [v] output n =
      Kernel.transposed? src output.dims strides n := by
    intro n
    rw [Operation.elements?, Operation.transposeElements?, hstrides, hsrc, Flat.as?_ofElements]
    rfl
  have hchecks : ¬ (permutation.length ≠ v.buffer.shape.rank ∨ output.rank ≠ v.buffer.shape.rank) := by
    rintro (h | h)
    · exact h hlength
    · exact h hrank
  rw [transpose, exec_bind_ok (exec_buffer hv.1), if_neg hchecks]
  have hstrides' : permutedStrides permutation v.buffer.shape = some strides := hstrides
  rw [hstrides']
  refine ran_newBuffer_bind hs (fun _ => causes_layout) fun out s' flat hmade => ?_
  obtain ⟨data, rfl, hsize, hlayout⟩ := hmade.elements ht
  have hranges := covers_ranges s'.host hsize
  obtain ⟨hresult, hok, hfail⟩ := Kernel.overRanges_transpose src strides hpos hranges
  rw [exec_bind_ok (exec_get s')]
  by_cases hempty : (s'.host.ranges output.size).isEmpty = true
  · -- there is nothing to write
    rw [if_pos hempty]
    rw [List.isEmpty_iff] at hempty
    rw [hempty] at hok
    refine .ok out s' _ hmade fun _ => ?_
    rw [value?_eq ht hlayout, hvalue, hok rfl]
    rfl
  · rw [if_neg hempty, exec_bind_ok (exec_elementType ht s'), exec_bind_ok (exec_elements t hsrc s'),
      exec_bind_ok (exec_buffer hmade.live.1), exec_bind_ok (exec_elements t rfl s')]
    rcases hrun : Kernel.overRanges (s'.host.ranges output.size) (Kernel.transpose src output.dims strides) data
      with ⟨result, fault⟩
    rw [hrun] at hresult hok hfail
    have hput := hmade.put ht result (by rwa [hresult])
    rw [exec_bind_ok (exec_write hmade.live.1 _)]
    cases fault with
    | none =>
      refine .ok out _ _ hput fun _ => ?_
      rw [value?_eq ht hlayout, hvalue, hok rfl]
      rfl
    | some fault =>
      obtain rfl := Kernel.overRanges_transpose_fault (congrArg Prod.snd hrun)
      refine .error _ _ hput.sound (hput.frame.of_place hput.place) (fun h => by cases h)
        (.inr ⟨?_, .bounds (.inr rfl)⟩)
      rw [value?_eq ht hlayout, hvalue, hfail (some_ne_none _)]
      rfl

/-! ## Programs -/

/-- The inputs that are given away. -/
def given (ids : List Nat) (owned : List Bool) : List Nat :=
  (ids.zip owned).filterMap fun (id, own) => if own then some id else none

theorem given_cons (id : Nat) (ids : List Nat) (own : Bool) (owned : List Bool) :
    given (id :: ids) (own :: owned) = (if own then [id] else []) ++ given ids owned := by
  cases own <;> rfl

theorem mem_given {owned : List Bool} {i : Nat} (hid : ids[i]? = some id) (hown : owned.getD i false = true) :
    id ∈ given ids owned := by
  induction ids generalizing owned i with
  | nil => cases hid
  | cons id' ids ih =>
    cases owned with
    | nil => cases hown
    | cons own owned =>
      rw [given_cons]
      cases i with
      | zero =>
        obtain rfl : id' = id := Option.some.inj hid
        obtain rfl : own = true := hown
        exact mem_append_left _ (mem_singleton.mpr rfl)
      | succ i => exact mem_append_right _ (ih hid hown)

theorem exists_of_mem_given {owned : List Bool} (h : id ∈ given ids owned) :
    ∃ i : Nat, ids[i]? = some id ∧ owned.getD i false = true := by
  induction ids generalizing owned with
  | nil => cases h
  | cons id' ids ih =>
    cases owned with
    | nil => cases h
    | cons own owned =>
      rw [given_cons, mem_append] at h
      rcases h with hfirst | hrest
      · cases own with
        | false => cases hfirst
        | true => exact ⟨0, congrArg some (mem_singleton.mp hfirst).symm, rfl⟩
      · obtain ⟨i, hi, hown⟩ := ih hrest
        exact ⟨i + 1, hi, hown⟩

theorem exec_buffers (h : Holds s ids values) :
    exec (ids.mapM fun id => return (id, ← buffer id)) s = (.ok (ids.zip (values.map (·.buffer))), s) := by
  induction h with
  | nil => rfl
  | cons hlive _ ih =>
    have hfirst : ∀ (id : Nat) (b : HostBuffer), s.heap.get? id = some b →
        exec (do return (id, ← buffer id)) s = (.ok (id, b), s) := by
      intro id b hb
      rw [exec_bind_ok (exec_buffer hb)]
      rfl
    rw [mapM_cons, exec_bind_ok (hfirst _ _ hlive.1), exec_bind_ok ih]
    rfl

theorem exists_data (ht : output.dtype.element? = some t) (hshape : ∀ v ∈ values, v.shape = output)
    (hsound : ∀ v ∈ values, v.buffer.Sound) :
    ∃ data : List (Array t.Elem), values.mapM (fun v => v.flat.as? t) = some data ∧ data.length = values.length ∧
      ∀ x ∈ data, (x.size : Int) = output.size := by
  induction values with
  | nil => exact ⟨[], rfl, rfl, nofun⟩
  | cons v values ih =>
    obtain ⟨data, hdata, hlength, hsizes⟩ := ih (fun w hw => hshape w (.tail _ hw))
      (fun w hw => hsound w (.tail _ hw))
    have hv := hshape v (.head _)
    obtain ⟨x, hx, hsize, -⟩ := (hsound v (.head _)).exists_elements
      (show v.shape.dtype.element? = some t by rw [hv, ht])
    refine ⟨x :: data, ?_, by rw [length_cons, length_cons, hlength], fun y hy => ?_⟩
    · rw [mapM_cons, show v.flat = _ from hx, Flat.as?_ofElements, hdata]
      rfl
    · rcases mem_cons.mp hy with rfl | hy
      · rw [hsize]
        exact congrArg Shape.size hv
      · exact hsizes y hy

/-- The elements of all inputs. Those of the output are read from it, and are the same as long as it is as it was. -/
theorem exec_sources (h : Holds s ids values) {data : List (Array t.Elem)}
    (hdata : values.mapM (fun v => v.flat.as? t) = some data) {out : Nat} {old : Array t.Elem}
    (hold : ∀ b, s.Live out b → b.flat = .ofElements t old) (s' : HostState) :
    ∃ sources, exec ((ids.zip (values.map (·.buffer))).mapM (source t out)) s' = (.ok sources, s') ∧
      sources.map (·.data old) = data := by
  induction h generalizing data with
  | nil =>
    obtain rfl := Option.some.inj hdata
    exact ⟨[], rfl, rfl⟩
  | @cons id ids v values hlive _ ih =>
    rw [mapM_cons, bind_eq_bind, bind_eq_some_iff] at hdata
    obtain ⟨x, hx, hdata⟩ := hdata
    rw [bind_eq_bind, bind_eq_some_iff] at hdata
    obtain ⟨rest, hrest, hdata⟩ := hdata
    obtain rfl := Option.some.inj hdata
    obtain ⟨sources, hsources, hrest⟩ := ih hrest
    have hfirst : exec (source t out (id, v.buffer)) s' = (.ok (if id = out then .output else .apart x), s') := by
      rw [source, elements, show v.buffer.flat.as? t = some x from hx]
      rfl
    refine ⟨(if id = out then .output else .apart x) :: sources, ?_, ?_⟩
    · rw [map_cons, zip_cons_cons, mapM_cons, exec_bind_ok hfirst, exec_bind_ok hsources]
      rfl
    · rw [map_cons]
      congr 1
      -- an operand that is the output itself is read from it while it is overwritten
      by_cases hid : id = out
      · subst hid
        rw [if_pos rfl]
        rw [show v.flat = _ from hold _ hlive, Flat.as?_ofElements] at hx
        exact Option.some.inj hx
      · rw [if_neg hid]
        rfl

theorem otherShape?_eq_none (hshape : ∀ v ∈ values, v.shape = output) :
    otherShape? (ids.zip (values.map (·.buffer))) output = none := by
  have hfind : (ids.zip (values.map (·.buffer))).findIdx? (fun (_, b) => b.shape != output) = none := by
    rw [findIdx?_eq_none_iff]
    rintro ⟨id, b⟩ hmem
    obtain ⟨v, hv, rfl⟩ := List.mem_map.mp (of_mem_zip hmem).2
    have hb : v.buffer.shape = output := hshape v hv
    simp [hb]
  rw [otherShape?, hfind]
  rfl

theorem shape_of_otherShape? {inputs : List (BufferId × HostBuffer)} (h : otherShape? inputs output = none) :
    ∀ p ∈ inputs, p.2.shape = output := by
  intro p hp
  have hsame := eq_false_of_findIdx? h p hp
  simpa using hsame

theorem shape_eq_of_otherShape? (hin : Holds s ids values)
    (h : otherShape? (ids.zip (values.map (·.buffer))) output = none) : ∀ v ∈ values, v.shape = output := by
  intro v hv
  have hlength : (values.map (·.buffer)).length ≤ ids.length := by rw [length_map, hin.length_eq]
  have hmem : v.buffer ∈ (ids.zip (values.map (·.buffer))).map Prod.snd := by
    rw [map_snd_zip hlength]
    exact List.mem_map_of_mem hv
  obtain ⟨p, hp, hbuffer⟩ := List.mem_map.mp hmem
  have hshape := shape_of_otherShape? h p hp
  rwa [hbuffer] at hshape

theorem reusable?_eq_some (h : Holds s ids values) {owned : List Bool}
    (hid : reusable? (ids.zip (values.map (·.buffer))) owned output = some id) :
    id ∈ given ids owned ∧ ∃ flat, s.Live id ⟨output, flat, false⟩ := by
  induction h generalizing owned with
  | nil => simp [reusable?] at hid
  | @cons id' ids v values hlive _ ih =>
    cases owned with
    | nil => simp [reusable?] at hid
    | cons own owned =>
      rw [given_cons]
      rw [reusable?, map_cons, zip_cons_cons, zip_cons_cons, find?_cons] at hid
      split at hid
      · rename_i hfirst
        rw [Bool.and_eq_true, beq_iff_eq] at hfirst
        obtain rfl : id' = id := Option.some.inj hid
        have hbuffer : v.buffer = ⟨output, v.flat, false⟩ := by
          rw [← hfirst.2]
          rfl
        rw [hfirst.1]
        exact ⟨mem_append_left _ (mem_singleton.mpr rfl), v.flat, hbuffer ▸ hlive⟩
      · obtain ⟨hmem, hrest⟩ := ih hid
        exact ⟨mem_append_right _ hmem, hrest⟩

/-- The last part of a fused operation: the program is run and its results are written. -/
def runInto (kernel : Program) (inputs : List (BufferId × HostBuffer)) (reused : Option BufferId)
    (output : Shape) (out : BufferId) : HostM Stop BufferId := do
  let t ← elementType output
  let sources ← inputs.mapM (source t out)
  let ranges := (← get).host.ranges output.size
  let (result, fault) := Kernel.inPlace ranges (Kernel.runProgram t kernel sources.toArray)
    (← elements t (← buffer out))
  write out (.ofElements t result)
  match fault with
  | none => return out
  | some fault =>
    if reused.isNone then recycle out
    throw (ofFault fault)

/-- What a fused operation does once its arguments are checked: it runs the kernel into an input that is given away, or
into a new buffer. -/
def runKernel (kernel : Program) (inputs : List (BufferId × HostBuffer)) (owned : List Bool) (output : Shape) :
    HostM Stop BufferId :=
  match reusable? inputs owned output with
  | some id => runInto kernel inputs (some id) output id
  | none => newBuffer output >>= runInto kernel inputs none output

theorem holds_dividedBy (h : Holds s ids values) (q : Partition) : Holds (s.dividedBy q) ids values := by
  induction h with
  | nil => exact .nil
  | cons hlive _ ih => exact .cons hlive ih

theorem exec_fused_checked (hin : Holds s ids values) (hdtype : p.dtype = output.dtype)
    (hcount : (ids.length : Int) = p.numInputs) (owned : List Bool) :
    let inputs := ids.zip (values.map (·.buffer))
    exec (fused (some p) ids owned output) s = exec (match otherShape? inputs output with
      | some (i, shape) => throw (.rejected (.inputShape p.signature i shape output))
      | none => compile p >>= fun kernel => runKernel kernel inputs owned output) s := by
  intro inputs
  rw [fused]
  rw [if_neg (fun h => h hdtype), if_neg (fun h => h hcount), exec_bind_ok (exec_buffers hin)]
  simp only [runKernel]
  cases reusable? inputs owned output <;> cases otherShape? inputs output <;> rfl

theorem exec_fused (hkernels : s.host.kernels.Sound) (hin : Holds s ids values) (hkernel : kernelOf p = .ok p)
    (hdtype : p.dtype = output.dtype) (hcount : (ids.length : Int) = p.numInputs)
    (hshape : ∀ v ∈ values, v.shape = output) (owned : List Bool) :
    ∃ kernels : KernelCache Program, kernels.Sound ∧ ∀ q, exec (fused (some p) ids owned output) (s.dividedBy q) =
      exec (runKernel p (ids.zip (values.map (·.buffer))) owned output) ((s.withKernels kernels).dividedBy q) := by
  obtain ⟨kernels, hsound, hexec⟩ := exec_compile_ok hkernels hkernel
  refine ⟨kernels, hsound, fun q => ?_⟩
  have hcompile := equivariant_compile p s q
  rw [hexec] at hcompile
  rw [exec_fused_checked (holds_dividedBy hin q) hdtype hcount, otherShape?_eq_none hshape]
  exact exec_bind_ok hcompile

/-- What a fused operation comes to: it is rejected before a buffer is touched, or its program is valid, fits the inputs
and is run. Only the run looks at the division of work. -/
inductive Fused (s : HostState) (ids : List Nat) (values : List Value) (program : Option Program) (owned : List Bool)
    (output : Shape) : Prop where
  | rejected (e : Stop) (kernels : KernelCache Program) (sound : kernels.Sound)
    (cause : ∀ position, e ≠ .divisionByZero position)
    (exec_eq : ∀ q, exec (fused program ids owned output) (s.dividedBy q) =
      (.error e, (s.withKernels kernels).dividedBy q))
  | runs (p : Program) (t : ElementType) (kernels : KernelCache Program) (sound : kernels.Sound) (valid : p.Valid)
    (program_eq : program = some p) (element : output.dtype.element? = some t)
    (layout : ∃ l, Layout.make output.dtype output.size = .ok l) (count : (ids.length : Int) = p.numInputs)
    (shapes : ∀ v ∈ values, v.shape = output)
    (exec_eq : ∀ q, exec (fused program ids owned output) (s.dividedBy q) =
      exec (runKernel p (ids.zip (values.map (·.buffer))) owned output) ((s.withKernels kernels).dividedBy q))

/-- A program has an input, and the layout of this input is that of the output. -/
theorem layout_of_holds (hs : s.Sound) (hin : Holds s ids values) (hp : p.Valid)
    (hcount : (ids.length : Int) = p.numInputs) (hshape : ∀ v ∈ values, v.shape = output) :
    ∃ l, Layout.make output.dtype output.size = .ok l := by
  cases hin with
  | nil => exact absurd (hcount ▸ hp.numInputs_pos) (by decide)
  | @cons id ids v values hlive _ =>
    obtain ⟨l, hlayout, -⟩ := hs.buffers id _ hlive.1
    rw [show v.buffer.shape = output from hshape v (.head _)] at hlayout
    exact ⟨l, hlayout⟩

/-- A fused program is rejected, or its kernel runs, whatever the division of the work. -/
theorem fused_cases (hs : s.Sound) (hin : Holds s ids values) (program : Option Program)
    (owned : List Bool) (output : Shape) : Fused s ids values program owned output := by
  cases program with
  | none => exact .rejected (.rejected _) s.host.kernels hs.kernels nofun fun _ => rfl
  | some p =>
    -- a program that does not fit is rejected before it is compiled
    by_cases hdtype : p.dtype = output.dtype
    · by_cases hcount : (ids.length : Int) = p.numInputs
      · have hchecked (q : Partition) := exec_fused_checked (holds_dividedBy hin q) hdtype hcount owned
        cases hother : otherShape? (ids.zip (values.map (·.buffer))) output with
        | some other =>
          refine .rejected (.rejected (.inputShape p.signature other.1 other.2 output)) s.host.kernels hs.kernels nofun
            fun q => ?_
          rw [hchecked, hother]
          rfl
        | none =>
          cases hkernel : kernelOf p with
          | error e =>
            obtain ⟨kernels, cause, hsound, hexec⟩ := exec_compile_error hs.kernels hkernel
            refine .rejected (.compile cause) kernels hsound nofun fun q => ?_
            have hcompile := equivariant_compile p s q
            rw [hexec] at hcompile
            rw [hchecked, hother]
            exact exec_bind_error hcompile
          | ok p' =>
            obtain ⟨rfl, hvalid, hsupported⟩ := kernelOf_eq_ok_iff.mp hkernel
            obtain ⟨t, ht⟩ := isSome_iff_exists.mp hsupported
            have hshape := shape_eq_of_otherShape? hin hother
            obtain ⟨kernels, hsound, hexec⟩ := exec_fused hs.kernels hin hkernel hdtype hcount hshape owned
            have hp := Program.validate_eq_ok_iff.mp hvalid
            exact .runs _ t kernels hsound hp rfl (hdtype ▸ ht) (layout_of_holds hs hin hp hcount hshape) hcount hshape hexec
      · refine .rejected (.rejected (.inputCount p.signature p.numInputs ids.length)) s.host.kernels hs.kernels nofun
          fun q => ?_
        rw [fused]
        rw [if_neg (fun h => h hdtype), if_pos hcount]
        rfl
    · refine .rejected (.rejected (.programDType p.dtype output)) s.host.kernels hs.kernels nofun fun q => ?_
      rw [fused]
      rw [if_pos hdtype]
      rfl

theorem unaryTotal (hdefined : p.Defined) (hdtype : p.dtype.element? = some t) : Kernel.UnaryTotal t.Lane p.steps := by
  intro s hs op hkind
  apply Kernel.unary_isSome
  intro hfloat
  obtain ⟨e, he, hd⟩ := hdefined s hs
  obtain rfl : e = .unary op := OpKind.elementwise.inj (he.symm.trans hkind)
  have hisFloat := hd.float hfloat
  rwa [DType.isFloat, hdtype] at hisFloat

theorem runProgram_fault (hp : p.Valid) (hdefined : p.Defined) (hdtype : p.dtype.element? = some t)
    {inputs : Array (Kernel.Source t.Elem)} {out : Array t.Elem} (hcount : (inputs.size : Int) = p.numInputs)
    (hsize : ∀ x ∈ inputs, (x.data out).size = out.size) {r : Range} {fault : Fault}
    (h : (Kernel.runProgram t p inputs out r).2 = some fault) : ∃ position, fault = .divisionByZero position := by
  apply Kernel.runSteps_fault _ _ (by simp) (unaryTotal hdefined hdtype) h
  · intro j s hs
    rw [Array.size_map, hcount, Array.size_empty, Nat.zero_add]
    exact hp.steps j s hs
  · intro x hx
    obtain ⟨y, hy, rfl⟩ := Array.mem_map.mp hx
    exact Kernel.Source.size_part t.widen (hsize y hy) r

/-- The operation of a program has no value. The reason is known if the operations of the program are defined. -/
def ProgramCauses (op : Operation) (p : Program) (values : List Value) (output : Shape) (e : Stop) : Prop :=
  op.value? values output = none ∧ (p.Defined → Fails op output e)

private theorem ran_runInto (hs : s.Sound) (hin : Holds s ids values) (hp : p.Valid)
    (hdtype : p.dtype = output.dtype) (hcount : p.numInputs = ids.length) (hshape : ∀ v ∈ values, v.shape = output)
    (ht : output.dtype.element? = some t) (hop : op.program? output.dtype = some p)
    (hvalue : ∀ n : Nat, op.elements? t values output n = Operation.programElements? t p values n) {out : Nat}
    {s' : HostState} {flat : Flat} {gave : List Nat} (hmade : Made s gave output out s' flat)
    (hown : ∀ b, s.Live out b → b.flat = flat) {reused : Option BufferId}
    (hreused : reused.isNone = true ↔ ∀ b, ¬ s.Live out b) :
    Ran s gave output (ProgramCauses op p values output) (Right op values output)
      (exec (runInto p (ids.zip (values.map (·.buffer))) reused output out) s') := by
  obtain ⟨data, hdata, hlength, hsizes⟩ := exists_data ht hshape (hin.sound hs)
  obtain ⟨old, rfl, hold, hlayout⟩ := hmade.elements ht
  obtain ⟨sources, hexec, hsources⟩ := exec_sources hin hdata hown s'
  have hranges := covers_ranges s'.host hold
  have hsize := Kernel.size_inPlace_runProgram p sources.toArray hranges
  obtain ⟨hok, hfail⟩ := Kernel.inPlace_runProgram sources.toArray hp.steps_ne_nil hranges
  have htable : op.value? values output =
      (Kernel.programTable? t p (sources.toArray.map (·.data old)) old.size).map (.ofElements t) := by
    rw [value?_eq ht hlayout, hvalue, Operation.programElements?, hdata, map_toArray, hsources]
    rfl
  rcases hrun : Kernel.inPlace (s'.host.ranges output.size) (Kernel.runProgram t p sources.toArray) old
    with ⟨result, fault⟩
  rw [hrun] at hsize hok hfail
  have hput := hmade.put ht result (by rwa [hsize])
  rw [runInto, exec_bind_ok (exec_elementType ht s'), exec_bind_ok hexec, exec_bind_ok (exec_get s'),
    exec_bind_ok (exec_buffer hmade.live.1), exec_bind_ok (exec_elements t rfl s'), hrun]
  rw [exec_bind_ok (exec_write hmade.live.1 _)]
  cases fault with
  | none =>
    refine .ok out _ _ hput fun _ => ?_
    rw [htable, hok rfl]
    rfl
  | some fault =>
    have hcause : ProgramCauses op p values output (ofFault fault) := by
      refine ⟨by rw [htable, hfail nofun]; rfl, fun hdefined => ?_⟩
      have hsome := congrArg Prod.snd hrun
      rw [Kernel.inPlace_runProgram_eq p sources.toArray hranges, Kernel.overRanges_snd] at hsome
      obtain ⟨r, -, hr⟩ := exists_of_findSome?_eq_some hsome
      have hsourceCount : (sources.toArray.size : Int) = p.numInputs := by
        rw [List.size_toArray, hcount, hin.length_eq, ← hlength, ← hsources, length_map]
      have hsourceSize : ∀ x ∈ sources.toArray, (x.data old).size = old.size := by
        intro x hx
        have := hsizes (x.data old) (by rw [← hsources]; exact List.mem_map_of_mem (List.mem_toArray.mp hx))
        omega
      obtain ⟨position, rfl⟩ := runProgram_fault hp hdefined (by rwa [hdtype]) hsourceCount hsourceSize hr
      exact .division p hop position
    simp only
    cases hput.place with
    | given _ hlive haccount =>
      -- the buffer of the operand keeps its shape
      have hnone : ¬ reused.isNone = true := by
        intro hnone
        obtain ⟨old, hold⟩ := hlive
        exact hreused.mp hnone _ hold
      rw [if_neg hnone]
      exact .error _ _ hput.sound (hput.frame.of_place hput.place) (fun _ => hput.kept_of_given haccount hlive)
        (.inr hcause)
    | new hfresh hcounted =>
      -- the new buffer is given back
      obtain ⟨s'', hrecycle, hsound, hframe, hsame⟩ := recycle_made hput hfresh hcounted
      rw [if_pos (hreused.mpr hfresh), exec_bind_ok hrecycle]
      exact .error _ _ hsound (hframe.mono nofun) (fun _ => .of_frame hframe hsame) (.inr hcause)

/-- A fused operation writes the results of its program, into a new buffer or an input that is given away. -/
theorem ran_program (hs : s.Sound) (hin : Holds s ids values) (hp : p.Valid) (hdtype : p.dtype = output.dtype)
    (hcount : p.numInputs = ids.length) (hshape : ∀ v ∈ values, v.shape = output) (ht : output.dtype.element? = some t)
    (hop : op.program? output.dtype = some p)
    (hvalue : ∀ n : Nat, op.elements? t values output n = Operation.programElements? t p values n) (owned : List Bool) :
    Ran s (given ids owned) output (ProgramCauses op p values output) (Right op values output)
      (exec (fused (some p) ids owned output) s) := by
  have hkernel : kernelOf p = .ok p := by
    refine kernelOf_eq_ok_iff.mpr ⟨rfl, Program.validate_eq_ok_iff.mpr hp, ?_⟩
    rw [DType.isSupported, hdtype, ht]
    rfl
  obtain ⟨kernels, hkernels, hexec⟩ := exec_fused hs.kernels hin hkernel hdtype hcount.symm hshape owned
  have hframe := frame_withKernels s kernels
  have hsound := hs.withKernels hkernels
  have hin₁ : Holds (s.withKernels kernels) ids values := hin.frame hframe nofun
  have hfused : exec (fused (some p) ids owned output) s = exec (runKernel p _ owned output) (s.withKernels kernels) :=
    hexec s.partition
  rw [hfused, runKernel]
  refine .of_heap hframe rfl rfl ?_
  generalize s.withKernels kernels = s₁ at hsound hin₁
  cases hreused : reusable? (ids.zip (values.map (·.buffer))) owned output with
  | some id =>
    -- the kernel works in place, on an input that is given away
    obtain ⟨hgiven, flat, hlive⟩ := reusable?_eq_some hin₁ hreused
    have hmade : Made s₁ (given ids owned) output id s₁ flat :=
      ⟨hsound, Frame.refl s₁ _, hlive, .given hgiven ⟨flat, hlive⟩ rfl⟩
    have hown : ∀ b, s₁.Live id b → b.flat = flat := by
      intro b hb
      obtain rfl := Option.some.inj (hb.1.symm.trans hlive.1)
      rfl
    have hreused' : (some id).isNone = true ↔ ∀ b, ¬ s₁.Live id b := ⟨nofun, fun hfresh => absurd hlive (hfresh _)⟩
    exact ran_runInto hsound hin₁ hp hdtype hcount hshape ht hop hvalue hmade hown hreused'
  | none =>
    refine ran_newBuffer_bind hsound (fun _ h => ⟨(causes_layout h).1, fun _ => .layout h⟩) fun out s' flat hmade => ?_
    have hown : ∀ b, s₁.Live out b → b.flat = flat := fun b hb => absurd rfl (hmade.fresh hb)
    have hreused' : (none : Option BufferId).isNone = true ↔ ∀ b, ¬ s₁.Live out b :=
      ⟨fun _ b hb => hmade.fresh hb rfl, fun _ => rfl⟩
    exact ran_runInto hsound hin₁ hp hdtype hcount hshape ht hop hvalue (hmade.mono nofun) hown hreused'

/-- If its operations are defined, a fused operation only has no value where an integer is divided by zero. -/
theorem ran_fused (hs : s.Sound) (hin : Holds s ids values) (hp : p.Valid) (hdefined : p.Defined)
    (hdtype : p.dtype = output.dtype) (hcount : p.numInputs = ids.length) (hshape : ∀ v ∈ values, v.shape = output)
    (ht : output.dtype.element? = some t) (hop : op.program? output.dtype = some p)
    (hvalue : ∀ n : Nat, op.elements? t values output n = Operation.programElements? t p values n) (owned : List Bool) :
    Ran s (given ids owned) output (Causes op values output) (Right op values output)
      (exec (fused (some p) ids owned output) s) :=
  (ran_program hs hin hp hdtype hcount hshape ht hop hvalue owned).imp (fun _ h => ⟨h.1, h.2 hdefined⟩)
    fun _ hright _ => hright

end HostM

end LazyTensor
