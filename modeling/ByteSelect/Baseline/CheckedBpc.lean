import ByteSelect.Baseline.Bpc
import ByteSelect.Baseline.Checked

/-! The decoder of bit planes with every index and every shift checked. -/
namespace ByteSelect.Baseline.Checked

open Guarded
open FpcBsel (Word)

/-- The loop of `ceil_log2` with at most `n` turns. -/
def ceilLog2From (value : ℕ) : ℕ → ℕ → Run ℕ
  | 0, bits => .ok bits
  | n + 1, bits => do
    let power ← shift 64 bits (1 <<< bits)
    if power < value then ceilLog2From value n (bits + 1) else return bits

def ceilLog2 (value : ℕ) : Run ℕ := ceilLog2From value 64 0

def bpcReadBase : Reading Word := do
  let first ← get 1
  if first ≠ 0 then return BitVec.ofNat 32 (← get 32)
  else
    let suffix ← get 2
    if suffix = 0 then return 0
    else if suffix = 2 then signExtend (BitVec.ofNat 32 (← get 4)) 4
    else if suffix = 1 then signExtend (BitVec.ofNat 32 (← get 8)) 8
    else signExtend (BitVec.ofNat 32 (← get 16)) 16

def bpcReadPlane (width positionWidth : ℕ) (mask : Word) (dbx : List Word) :
    Reading (List Word) := do
  let first ← get 1
  if first ≠ 0 then return dbx ++ [BitVec.ofNat 32 (← get width)]
  else
    let second ← get 1
    if second ≠ 0 then
      let run := (← get 5) + 2
      if dbx.length + run > 32 then throw (.thrown (.runtimeError "invalid BPC zero run"))
      else return dbx ++ List.replicate run 0
    else
      let third ← get 1
      if third ≠ 0 then return dbx ++ [0]
      else
        let subtype ← get 2
        if subtype = 0 then return dbx ++ [mask]
        else
          let position ← get positionWidth
          if position ≥ width then throw (.thrown (.runtimeError "invalid BPC position"))
          else if subtype = 1 then shift 32 position (dbx ++ [3#32 <<< position])
          else if subtype = 3 then shift 32 position (dbx ++ [1#32 <<< position])
          else throw (.thrown (.runtimeError "unsupported BPC plane code"))

def bpcReadPlanes (width positionWidth : ℕ) (mask : Word) : ℕ → List Word → Reading (List Word)
  | 0, dbx => pure dbx
  | n + 1, dbx =>
    if dbx.length < 32 then do
      let dbx ← bpcReadPlane width positionWidth mask dbx
      bpcReadPlanes width positionWidth mask n dbx
    else pure dbx

/-- An assignment to an element. -/
def store (l : List Word) (i : ℕ) (value : Word) : Run (List Word) :=
  demand (i < l.length) (l.set i value)

def bpcPlanesStep (dbx planes : List Word) (i : ℕ) : Run (List Word) := do
  let bit := 31 - (i + 1)
  let plane ← index dbx (i + 1)
  let above ← index planes (bit + 1)
  store planes bit (plane ^^^ above)

def bpcPlanesOf (dbx : List Word) : Run (List Word) := do
  let first ← index dbx 0
  let planes ← store (List.replicate 32 0) 31 first
  (List.range 31).foldlM (bpcPlanesStep dbx) planes

/-- One turn of the inner loop that gathers the differences. -/
def bpcDeltaStep (planes : List Word) (bit : ℕ) (deltas : List Word) (i : ℕ) :
    Run (List Word) := do
  let plane ← index planes bit
  let low ← shift 32 i ((plane >>> i) &&& 1)
  let moved ← shift 32 bit (low <<< bit)
  let delta ← index deltas i
  store deltas i (delta ||| moved)

def bpcDeltasOf (planes : List Word) (width : ℕ) : Run (List Word) :=
  (List.range 32).foldlM (fun deltas bit =>
    (List.range width).foldlM (bpcDeltaStep planes bit) deltas) (List.replicate width 0)

/-- One turn of the loop over the differences. -/
def bpcAppend (state : Word × Block) (delta : Word) : Run (Word × Block) := do
  let out ← pushBytes state.2 (state.1 + delta)
  return (state.1 + delta, out)

def bpcOutput (base : Word) (deltas : List Word) : Run Block := do
  let out ← pushBytes [] base
  let (_, out) ← deltas.foldlM bpcAppend (base, out)
  return out

def bpcReadBlock (symbolCount : ℕ) : Reading Block := do
  let width := symbolCount - 1
  let mask ← shift 32 width (bpcMask width)
  let positionWidth ← ceilLog2 symbolCount
  let base ← bpcReadBase
  let dbx ← bpcReadPlanes width positionWidth mask 32 []
  let planes ← bpcPlanesOf dbx
  let deltas ← bpcDeltasOf planes width
  bpcOutput base deltas

def bpcDecode (encoded : List Byte) (outputSize : ℕ) : Run Block := do
  throwIf (outputSize < 8 ∨ outputSize % 4 ≠ 0 ∨ outputSize / 4 > 32)
    (.invalidArgument "invalid BPC output size")
  let (out, _) ← bpcReadBlock (outputSize / 4) { bytes := encoded }
  return out

variable {dbx planes deltas : List Word} {width positionWidth n : ℕ}

/-! The base and the planes. -/

theorem safe_ceilLog2From {value bits : ℕ} (hvalue : value ≤ 2 ^ 63) (hbits : bits ≤ 63) (n : ℕ) :
    Safe (fun bits => bits ≤ 64) (ceilLog2From value n bits) := by
  induction n generalizing bits with
  | zero =>
    refine .returns ?_
    omega
  | succ n ih =>
    refine (safe_shift (by omega)).bind ?_
    rintro _ rfl
    split
    · rename_i hlt
      rw [Nat.one_shiftLeft] at hlt
      have hpow : bits < 63 := (Nat.pow_lt_pow_iff_right (by decide)).mp (hlt.trans_le hvalue)
      exact ih hpow
    · refine .returns ?_
      omega

theorem checks_ceilLog2From (value n bits : ℕ) :
    Checks (.ok (WhileLoop.run (ceilStep value) n bits)) (ceilLog2From value n bits) := by
  induction n generalizing bits with
  | zero => exact .same
  | succ n ih =>
    refine (checks_shift _ _ _).after ?_
    by_cases hlt : 1 <<< bits < value
    · have hstep : ceilStep value bits = some (bits + 1) := if_pos hlt
      rw [if_pos hlt, WhileLoop.run_succ hstep]
      exact ih (bits + 1)
    · have hstep : ceilStep value bits = none := if_neg hlt
      rw [if_neg hlt, WhileLoop.run_of_halted hstep]
      exact .same

theorem stays_bpcReadBase : Stays (fun _ => True) bpcReadBase := by
  refine (stays_get (by decide)).bind fun first _ => ?_
  split
  · exact (stays_get (by decide)).bind fun value _ => stays_pure trivial
  refine (stays_get (by decide)).bind fun suffix _ => ?_
  split
  · exact stays_pure trivial
  split
  · exact (stays_get (by decide)).bind fun value _ => stays_lift (safe_signExtend _ (by decide))
  split
  · exact (stays_get (by decide)).bind fun value _ => stays_lift (safe_signExtend _ (by decide))
  · exact (stays_get (by decide)).bind fun value _ => stays_lift (safe_signExtend _ (by decide))

theorem checks_bpcReadBase : ChecksState Baseline.bpcReadBase bpcReadBase := by
  refine (checks_get 1).bind fun first => ?_
  split
  · exact (checks_get 32).bind fun value => checksState_pure _
  refine (checks_get 2).bind fun suffix => ?_
  split
  · exact checksState_pure _
  split
  · exact (checks_get 4).bind fun value => .lift (checks_signExtend _ _)
  split
  · exact (checks_get 8).bind fun value => .lift (checks_signExtend _ _)
  · exact (checks_get 16).bind fun value => .lift (checks_signExtend _ _)

/-- A turn adds planes, and never too many. -/
theorem stays_bpcReadPlane (mask : Word) (hwidth : width ≤ 31) (hposition : positionWidth ≤ 64)
    (hlt : dbx.length < 32) :
    Stays (fun next => dbx.length < next.length ∧ next.length ≤ 32)
      (bpcReadPlane width positionWidth mask dbx) := by
  have hpush : ∀ plane : Word, dbx.length < (dbx ++ [plane]).length ∧
      (dbx ++ [plane]).length ≤ 32 := by
    intro plane
    rw [List.length_append, List.length_singleton]
    omega
  refine (stays_get (by decide)).bind fun first _ => ?_
  split
  · exact (stays_get (by omega)).bind fun value _ => stays_pure (hpush _)
  refine (stays_get (by decide)).bind fun second _ => ?_
  split
  · refine (stays_get (by decide)).bind fun value _ => ?_
    dsimp only
    split
    · exact stays_throw _
    · refine stays_pure ?_
      rw [List.length_append, List.length_replicate]
      omega
  refine (stays_get (by decide)).bind fun third _ => ?_
  split
  · exact stays_pure (hpush 0)
  refine (stays_get (by decide)).bind fun subtype _ => ?_
  split
  · exact stays_pure (hpush mask)
  refine (stays_get hposition).bind fun position _ => ?_
  split
  · exact stays_throw _
  rename_i hlt'
  split
  · refine (stays_lift (safe_shift (by omega))).mono ?_
    rintro _ rfl
    exact hpush _
  split
  · refine (stays_lift (safe_shift (by omega))).mono ?_
    rintro _ rfl
    exact hpush _
  · exact stays_throw _

theorem checks_bpcReadPlane (width positionWidth : ℕ) (dbx : List Word) :
    ChecksState (Baseline.bpcReadPlane width positionWidth dbx)
      (bpcReadPlane width positionWidth (bpcMask width) dbx) := by
  refine (checks_get 1).bind fun first => ?_
  split
  · exact (checks_get width).bind fun value => checksState_pure _
  refine (checks_get 1).bind fun second => ?_
  split
  · refine (checks_get 5).bind fun value => ?_
    dsimp only
    split
    · exact checksState_throw _
    · exact checksState_pure _
  refine (checks_get 1).bind fun third => ?_
  split
  · exact checksState_pure _
  refine (checks_get 2).bind fun subtype => ?_
  split
  · exact checksState_pure _
  refine (checks_get positionWidth).bind fun position => ?_
  split
  · exact checksState_throw _
  split
  · exact .lift (checks_shift _ _ _)
  split
  · exact .lift (checks_shift _ _ _)
  · exact checksState_throw _

theorem stays_bpcReadPlanes (mask : Word) (hwidth : width ≤ 31) (hposition : positionWidth ≤ 64)
    (hle : dbx.length ≤ 32) (hn : 32 ≤ dbx.length + n) :
    Stays (fun next => next.length = 32) (bpcReadPlanes width positionWidth mask n dbx) := by
  induction n generalizing dbx with
  | zero =>
    refine stays_pure ?_
    omega
  | succ n ih =>
    unfold bpcReadPlanes
    split
    · rename_i hlt
      refine (stays_bpcReadPlane mask hwidth hposition hlt).bind fun next hnext => ?_
      exact ih hnext.2 (by omega)
    · refine stays_pure ?_
      omega

theorem checks_bpcReadPlanes (width positionWidth n : ℕ) (dbx : List Word) :
    ChecksState (Baseline.bpcReadPlanes width positionWidth n dbx)
      (bpcReadPlanes width positionWidth (bpcMask width) n dbx) := by
  induction n generalizing dbx with
  | zero => exact checksState_pure dbx
  | succ n ih =>
    unfold bpcReadPlanes Baseline.bpcReadPlanes
    split
    · exact (checks_bpcReadPlane width positionWidth dbx).bind fun next => ih next
    · exact checksState_pure dbx

theorem safe_store {l : List Word} {i : ℕ} (h : i < l.length) (value : Word) :
    Safe (fun next => next.length = l.length) (store l i value) :=
  safe_demand h List.length_set

theorem checks_store (l : List Word) (i : ℕ) (value : Word) :
    Checks (.ok (l.set i value)) (store l i value) :=
  checks_demand _

theorem safe_bpcPlanesOf (hdbx : dbx.length = 32) :
    Safe (fun planes => planes.length = 32) (bpcPlanesOf dbx) := by
  refine (safe_index (by omega)).bind fun first _ =>
    (safe_store (by decide) first).bind fun planes hplanes => ?_
  refine safe_foldlM_range (fun _ (planes : List Word) => planes.length = 32) hplanes
    fun i planes hi hlen => ?_
  refine (safe_index (by omega)).bind fun plane _ => (safe_index (by omega)).bind fun above _ => ?_
  exact (safe_store (by omega) _).mono fun next hnext => hnext.trans hlen

theorem checks_bpcPlanesOf (dbx : List Word) :
    Checks (.ok (Baseline.bpcPlanesOf dbx)) (bpcPlanesOf dbx) := by
  refine (checks_index _ _ 0).after ((checks_store _ _ _).after ?_)
  refine checks_foldl _ _ fun planes i => ?_
  exact (checks_index _ _ 0).after ((checks_index _ _ 0).after (checks_store _ _ _))

/-! The differences and the output. -/

theorem safe_bpcDeltasOf (hplanes : planes.length = 32) (hwidth : width ≤ 31) :
    Safe (fun deltas => deltas.length = width) (bpcDeltasOf planes width) := by
  refine safe_foldlM_range (fun _ (deltas : List Word) => deltas.length = width)
    List.length_replicate fun bit deltas hbit hlen => ?_
  refine safe_foldlM_range (fun _ (deltas : List Word) => deltas.length = width) hlen
    fun i deltas hi hlen => ?_
  refine (safe_index (by omega)).bind fun plane _ => (safe_shift (by omega)).bind fun low _ =>
    (safe_shift (by omega)).bind fun moved _ => (safe_index (by omega)).bind fun delta _ => ?_
  exact (safe_store (by omega) _).mono fun next hnext => hnext.trans hlen

/-- Assigning to one element after the other maps the list. -/
theorem foldl_set {α : Type} (f : ℕ → α → α) (d : α) (l : List α) (h : n ≤ l.length) :
    (List.range n).foldl (fun l i => l.set i (f i (l.getD i d))) l =
      (l.take n).mapIdx f ++ l.drop n := by
  induction n with
  | zero => rfl
  | succ n ih =>
    have hlen : ((l.take n).mapIdx f).length = n := by
      rw [List.length_mapIdx, List.length_take_of_le (by omega)]
    rw [List.range_succ, List.foldl_append, ih (by omega), List.foldl_cons, List.foldl_nil,
      List.getD_append_right _ _ _ _ (by omega), List.set_append_right _ _ (by omega), hlen,
      Nat.sub_self, List.drop_eq_getElem_cons h, List.getD_cons_zero, List.set_cons_zero,
      List.take_succ_eq_append_getElem h, List.mapIdx_append, List.length_take_of_le (by omega),
      List.append_assoc]
    simp

/-- The loops over the bits and the elements, as one map for each bit. -/
theorem foldl_bits (f : ℕ → ℕ → Word → Word) (bits : List ℕ) (h : deltas.length = width) :
    bits.foldl (fun deltas bit => (List.range width).foldl
      (fun deltas i => deltas.set i (f bit i (deltas.getD i 0))) deltas) deltas =
      bits.foldl (fun deltas bit => deltas.mapIdx (f bit)) deltas := by
  induction bits generalizing deltas with
  | nil => rfl
  | cons bit bits ih =>
    have hinner := foldl_set (f bit) 0 deltas h.ge
    rw [← h, List.take_length, List.drop_length, List.append_nil, h] at hinner
    rw [List.foldl_cons, List.foldl_cons, hinner]
    exact ih (by rw [List.length_mapIdx, h])

theorem checks_bpcDeltasOf (planes : List Word) (width : ℕ) :
    Checks (.ok (Baseline.bpcDeltasOf planes width)) (bpcDeltasOf planes width) := by
  rw [Baseline.bpcDeltasOf, ← foldl_bits (fun bit i delta =>
    delta ||| ((planes.getD bit 0 >>> i) &&& 1) <<< bit) _ List.length_replicate]
  refine checks_foldl _ _ fun deltas bit => checks_foldl _ _ fun deltas i => ?_
  refine (checks_index _ _ 0).after ((checks_shift _ _ _).after ((checks_shift _ _ _).after ?_))
  exact (checks_index _ _ 0).after (checks_store _ _ _)

theorem safe_bpcOutput (base : Word) (deltas : List Word) :
    Safe (fun out => out.length = 4 * (deltas.length + 1)) (bpcOutput base deltas) := by
  refine (safe_pushBytes [] base).bind fun out hout => ?_
  have hloop : ∀ state : Word × Block, Safe (fun next => next.2.length =
      state.2.length + 4 * deltas.length) (deltas.foldlM bpcAppend state) := by
    induction deltas with
    | nil => exact fun state => .returns rfl
    | cons delta deltas ih =>
      intro state
      rw [List.foldlM_cons]
      refine ((safe_pushBytes state.2 _).bind fun out hout => .returns hout).bind
        (p := fun next => next.2.length = state.2.length + 4) fun next hnext =>
        (ih next).mono fun last hlast => ?_
      rw [hlast, hnext, List.length_cons]
      omega
  refine (hloop (base, out)).bind fun last hlast => .returns ?_
  rw [hlast, hout, List.length_nil]
  omega

theorem checks_bpcOutput (base : Word) (deltas : List Word) :
    Checks (.ok (Baseline.bpcOutput base deltas)) (bpcOutput base deltas) := by
  have hbase := checks_pushBytes [] base
  rw [List.nil_append] at hbase
  refine hbase.after ?_
  have hloop := checks_foldl deltas (base, valueBytes base) fun state delta =>
    show Checks (.ok (state.1 + delta, state.2 ++ valueBytes (state.1 + delta)))
      (bpcAppend state delta) from (checks_pushBytes _ _).after .same
  exact hloop.after .same

/-! The decoder. -/

theorem safe_bpcDecode (encoded : List Byte) (outputSize : ℕ) :
    Safe (fun out => out.length = outputSize) (bpcDecode encoded outputSize) := by
  refine safe_throwIf.bind fun _ hsize => ?_
  have hblock : Stays (fun out => out.length = outputSize) (bpcReadBlock (outputSize / 4)) := by
    refine (stays_lift (safe_shift (by omega))).bind fun mask _ =>
      (stays_lift (safe_ceilLog2From (by omega) (Nat.zero_le _) 64)).bind fun positionWidth hw =>
      stays_bpcReadBase.bind fun base _ =>
      (stays_bpcReadPlanes mask (by omega) hw (Nat.zero_le _) (Nat.le_refl _)).bind
        fun dbx hdbx => ?_
    refine (stays_lift (safe_bpcPlanesOf hdbx)).bind fun planes hplanes =>
      (stays_lift (safe_bpcDeltasOf hplanes (by omega))).bind fun deltas hdeltas =>
      (stays_lift (safe_bpcOutput base deltas)).mono fun out hout => ?_
    omega
  exact (hblock _).bind fun r hr => .returns hr

theorem checks_bpcDecode (encoded : List Byte) (outputSize : ℕ) :
    Checks (Baseline.bpcDecode encoded outputSize) (bpcDecode encoded outputSize) := by
  refine (checks_throwIf _ _).bind fun _ => ?_
  have hblock : ChecksState (Baseline.bpcReadBlock (outputSize / 4))
      (bpcReadBlock (outputSize / 4)) := by
    refine .after (checks_shift _ _ _) (.after (checks_ceilLog2From _ _ _) ?_)
    refine checks_bpcReadBase.bind fun base => (checks_bpcReadPlanes _ _ _ _).bind fun dbx => ?_
    exact .after (checks_bpcPlanesOf dbx) (.after (checks_bpcDeltasOf _ _)
      (.lift (checks_bpcOutput _ _)))
  exact (hblock _).bind fun r => .same

/-- The checked run of a decoder is the decoder, and on every stream it throws or returns exactly
the bytes it was asked for. -/
structure Total (decode : List Byte → ℕ → Except Error Block)
    (checked : List Byte → ℕ → Run Block) : Prop where
  same : ∀ encoded outputSize, checked encoded outputSize = lift (decode encoded outputSize)
  total : ∀ encoded outputSize, (∃ e, checked encoded outputSize = .error (.thrown e)) ∨
    ∃ out, checked encoded outputSize = .ok out ∧ out.length = outputSize

theorem Total.of_safe {decode : List Byte → ℕ → Except Error Block}
    {checked : List Byte → ℕ → Run Block}
    (hchecks : ∀ encoded outputSize, Checks (decode encoded outputSize)
      (checked encoded outputSize))
    (hsafe : ∀ encoded outputSize, Safe (fun out => out.length = outputSize)
      (checked encoded outputSize)) : Total decode checked where
  same encoded outputSize := (hchecks encoded outputSize).eq_lift (hsafe encoded outputSize)
  total encoded outputSize := safe_iff.mp (hsafe encoded outputSize)

/-- On no stream does a decoder use an index out of range or a shift that is too wide. -/
theorem decoders_total : Total Baseline.fpcDecode fpcDecode ∧
    Total Baseline.bdiDecode bdiDecode ∧ Total Baseline.cpackDecode cpackDecode ∧
    Total Baseline.bpcDecode bpcDecode ∧ Total Baseline.lz77LiteDecode lz77LiteDecode :=
  ⟨.of_safe checks_fpcDecode safe_fpcDecode, .of_safe checks_bdiDecode safe_bdiDecode,
    .of_safe checks_cpackDecode safe_cpackDecode, .of_safe checks_bpcDecode safe_bpcDecode,
    .of_safe checks_lz77LiteDecode safe_lz77LiteDecode⟩

end ByteSelect.Baseline.Checked
