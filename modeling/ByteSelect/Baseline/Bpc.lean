import ByteSelect.Baseline.Values
import ByteSelect.BitPlanes

/-! Bit-plane compression: a base and differences, whose bit planes are coded one by one. -/
namespace ByteSelect.Baseline

open BitStream BitPlanes
open FpcBsel (Word load32 store32 wordsTo)

/-! The encoder. -/

def bpcPutBase (writer : BitWriter) (baseU : Word) : BitWriter :=
  let base := baseU.toInt
  if base = 0 then writer.put 0 3
  else if fitsSigned base 4 then (writer.put 4 3).put (baseU &&& 0xf).toNat 4
  else if fitsSigned base 8 then (writer.put 2 3).put (baseU &&& 0xff).toNat 8
  else if fitsSigned base 16 then (writer.put 6 3).put (baseU &&& 0xffff).toNat 16
  else (writer.put 1 1).put baseU.toNat 32

def bpcMask (width : ℕ) : Word := 1#32 <<< width - 1#32

/-- The branches of `bpc_encode` for a plane that is not zero. -/
def bpcPutPlane (width positionWidth : ℕ) (writer : BitWriter) (plane : Word) : BitWriter :=
  let ones := popcount plane
  let first := countTrailingZeros plane
  if plane = bpcMask width then writer.put 0 5
  else if ones = 2 ∧ first + 1 < width ∧ (plane >>> (first + 1)) &&& 1 ≠ 0 then
    (writer.put 8 5).put first positionWidth
  else if ones = 1 then (writer.put 24 5).put first positionWidth
  else (writer.put 1 1).put plane.toNat width

def zeroRunStep (dbx : List Word) (i run : ℕ) : Option ℕ :=
  if i + run < dbx.length ∧ dbx.getD (i + run) 0 = 0 ∧ run < 33 then some (run + 1) else none

def zeroRun (dbx : List Word) (i : ℕ) : ℕ := WhileLoop.run (zeroRunStep dbx i) 33 1

/-- One turn of the loop of `bpc_encode` over the planes. -/
def bpcEncodeStep (width positionWidth : ℕ) (dbx : List Word) (state : ℕ × BitWriter) :
    Option (ℕ × BitWriter) :=
  let (i, writer) := state
  if i < dbx.length then
    if dbx.getD i 0 = 0 then
      let run := zeroRun dbx i
      some (i + run, if run = 1 then writer.put 4 3 else (writer.put 2 2).put (run - 2) 5)
    else some (i + 1, bpcPutPlane width positionWidth writer (dbx.getD i 0))
  else none

/-- The differences of neighbours. -/
def bpcDeltas (symbols : List Word) (width : ℕ) : List Word :=
  (List.range width).map fun i => symbols.getD (i + 1) 0 - symbols.getD i 0

def bpcPlanes (deltas : List Word) (width : ℕ) : List Word :=
  (List.range 32).map (gather deltas width)

/-- Each plane against the plane above, from the highest down. -/
def bpcDbx (planes : List Word) : List Word :=
  planes.getD 31 0 :: (List.range 31).reverse.map fun bit =>
    planes.getD bit 0 ^^^ planes.getD (bit + 1) 0

def bpcEncode (block : Block) : Except Error (List Byte) := do
  throwIf (block.length < 8 ∨ block.length % 4 ≠ 0 ∨ block.length / 4 > 32)
    (.invalidArgument "BPC requires 2..32 32-bit symbols")
  let symbols64 ← valuesForWidth block 4
  let symbols : List Word := symbols64.map (BitVec.ofNat 32)
  let width := symbols.length - 1
  let dbx := bpcDbx (bpcPlanes (bpcDeltas symbols width) width)
  let writer := bpcPutBase {} (symbols.getD 0 0)
  let (_, writer) := WhileLoop.run (bpcEncodeStep width (ceilLog2 symbols.length) dbx) dbx.length
    (0, writer)
  return writer.bytes

/-! The decoder. -/

def bpcReadBase : Reading Word := do
  let first ← get 1
  if first ≠ 0 then return BitVec.ofNat 32 (← get 32)
  else
    let suffix ← get 2
    if suffix = 0 then return 0
    else if suffix = 2 then return signExtend (BitVec.ofNat 32 (← get 4)) 4
    else if suffix = 1 then return signExtend (BitVec.ofNat 32 (← get 8)) 8
    else return signExtend (BitVec.ofNat 32 (← get 16)) 16

/-- One turn of the loop of `bpc_decode` over the planes. -/
def bpcReadPlane (width positionWidth : ℕ) (dbx : List Word) : Reading (List Word) := do
  let first ← get 1
  if first ≠ 0 then return dbx ++ [BitVec.ofNat 32 (← get width)]
  else
    let second ← get 1
    if second ≠ 0 then
      let run := (← get 5) + 2
      if dbx.length + run > 32 then throw (.runtimeError "invalid BPC zero run")
      else return dbx ++ List.replicate run 0
    else
      let third ← get 1
      if third ≠ 0 then return dbx ++ [0]
      else
        let subtype ← get 2
        if subtype = 0 then return dbx ++ [bpcMask width]
        else
          let position ← get positionWidth
          if position ≥ width then throw (.runtimeError "invalid BPC position")
          else if subtype = 1 then return dbx ++ [3#32 <<< position]
          else if subtype = 3 then return dbx ++ [1#32 <<< position]
          else throw (.runtimeError "unsupported BPC plane code")

/-- The loop over the planes, with at most `n` turns; every turn adds a plane. -/
def bpcReadPlanes (width positionWidth : ℕ) : ℕ → List Word → Reading (List Word)
  | 0, dbx => pure dbx
  | n + 1, dbx =>
    if dbx.length < 32 then do
      let dbx ← bpcReadPlane width positionWidth dbx
      bpcReadPlanes width positionWidth n dbx
    else pure dbx

/-- One turn of the loop that undoes `bpcDbx`. -/
def bpcPlanesStep (dbx planes : List Word) (i : ℕ) : List Word :=
  let bit := 31 - (i + 1)
  planes.set bit (dbx.getD (i + 1) 0 ^^^ planes.getD (bit + 1) 0)

def bpcPlanesOf (dbx : List Word) : List Word :=
  (List.range 31).foldl (bpcPlanesStep dbx) ((List.replicate 32 0).set 31 (dbx.getD 0 0))

def bpcDeltasOf (planes : List Word) (width : ℕ) : List Word :=
  (List.range 32).foldl (fun deltas bit => deltas.mapIdx fun i delta =>
    delta ||| ((planes.getD bit 0 >>> i) &&& 1) <<< bit) (List.replicate width 0)

def bpcOutput (base : Word) (deltas : List Word) : Block :=
  (deltas.foldl (fun (value, out) delta => (value + delta, out ++ valueBytes (value + delta)))
    (base, valueBytes base)).2

def bpcReadBlock (symbolCount : ℕ) : Reading Block := do
  let width := symbolCount - 1
  let base ← bpcReadBase
  let dbx ← bpcReadPlanes width (ceilLog2 symbolCount) 32 []
  return bpcOutput base (bpcDeltasOf (bpcPlanesOf dbx) width)

def bpcDecode (encoded : List Byte) (outputSize : ℕ) : Except Error Block := do
  throwIf (outputSize < 8 ∨ outputSize % 4 ≠ 0 ∨ outputSize / 4 > 32)
    (.invalidArgument "invalid BPC output size")
  let (out, _) ← bpcReadBlock (outputSize / 4) { bytes := encoded }
  return out

variable {writer : BitWriter} {l t : List Bool} {plane base : Word} {width positionWidth n : ℕ}

/-! The base. -/

/-- The bits a base may be coded by. -/
inductive CodedBase (base : Word) : List Bool → Prop
  | zero (h : base = 0) : CodedBase base (bitsOf 0 3)
  | nibble (h : signExtend (BitVec.ofNat 32 (base.toNat % 2 ^ 4)) 4 = base) :
      CodedBase base (bitsOf 4 3 ++ bitsOf (base.toNat % 2 ^ 4) 4)
  | byte (h : signExtend (BitVec.ofNat 32 (base.toNat % 2 ^ 8)) 8 = base) :
      CodedBase base (bitsOf 2 3 ++ bitsOf (base.toNat % 2 ^ 8) 8)
  | halfword (h : signExtend (BitVec.ofNat 32 (base.toNat % 2 ^ 16)) 16 = base) :
      CodedBase base (bitsOf 6 3 ++ bitsOf (base.toNat % 2 ^ 16) 16)
  | literal : CodedBase base (bitsOf 1 1 ++ bitsOf base.toNat 32)

theorem bpcPutBase_coded (h : writer.Holds l) (base : Word) :
    ∃ t, CodedBase base t ∧ (bpcPutBase writer base).Holds (l ++ t) := by
  have hmask : ∀ bits < 32, (base &&& FpcBsel.mask bits).toNat = base.toNat % 2 ^ bits :=
    fun bits hbits => FpcBsel.toNat_and_mask hbits base
  have hput : ∀ tag bits, bits < 32 → ((writer.put tag 3).put (base &&& FpcBsel.mask bits).toNat
      bits).Holds (l ++ (bitsOf tag 3 ++ bitsOf (base.toNat % 2 ^ bits) bits)) := by
    intro tag bits hbits
    rw [hmask bits hbits]
    exact h.put_put tag 3 _ bits
  unfold bpcPutBase
  dsimp only
  by_cases h₀ : base.toInt = 0
  · rw [if_pos h₀]
    exact ⟨_, .zero (BitVec.eq_of_toInt_eq h₀), h.put 0 3⟩
  rw [if_neg h₀]
  by_cases h₄ : fitsSigned base.toInt 4 = true
  · rw [if_pos h₄]
    exact ⟨_, .nibble (signExtend_of_fitsSigned (by decide) h₄), hput 4 4 (by decide)⟩
  rw [if_neg h₄]
  by_cases h₈ : fitsSigned base.toInt 8 = true
  · rw [if_pos h₈]
    exact ⟨_, .byte (signExtend_of_fitsSigned (by decide) h₈), hput 2 8 (by decide)⟩
  rw [if_neg h₈]
  by_cases h₁₆ : fitsSigned base.toInt 16 = true
  · rw [if_pos h₁₆]
    exact ⟨_, .halfword (signExtend_of_fitsSigned (by decide) h₁₆), hput 6 16 (by decide)⟩
  rw [if_neg h₁₆]
  refine ⟨_, .literal, ?_⟩
  exact h.put_put 1 1 base.toNat 32

theorem bpcReadBase_decodes (h : CodedBase base t) :
    Decodes BitReader.Before bpcReadBase t base := by
  have hlow : ∀ n, base.toNat % 2 ^ n < 2 ^ n := fun n => Nat.mod_lt _ (Nat.two_pow_pos n)
  cases h with
  | zero hzero =>
    subst hzero
    change Decodes _ _ (bitsOf 0 1 ++ bitsOf 0 2) _
    exact (get_decodes (by decide)).bind ((get_decodes (by decide)).last (decodes_pure _))
  | nibble hbase =>
    change Decodes _ _ (bitsOf 0 1 ++ (bitsOf 2 2 ++ bitsOf (base.toNat % 2 ^ 4) 4)) _
    refine (get_decodes (by decide)).bind ((get_decodes (by decide)).bind
      ((get_decodes (hlow 4)).last ?_))
    rw [hbase]
    exact decodes_pure _
  | byte hbase =>
    change Decodes _ _ (bitsOf 0 1 ++ (bitsOf 1 2 ++ bitsOf (base.toNat % 2 ^ 8) 8)) _
    refine (get_decodes (by decide)).bind ((get_decodes (by decide)).bind
      ((get_decodes (hlow 8)).last ?_))
    rw [hbase]
    exact decodes_pure _
  | halfword hbase =>
    change Decodes _ _ (bitsOf 0 1 ++ (bitsOf 3 2 ++ bitsOf (base.toNat % 2 ^ 16) 16)) _
    refine (get_decodes (by decide)).bind ((get_decodes (by decide)).bind
      ((get_decodes (hlow 16)).last ?_))
    rw [hbase]
    exact decodes_pure _
  | literal =>
    refine (get_decodes (by decide)).bind ((get_decodes base.isLt).last ?_)
    rw [BitVec.ofNat_toNat, BitVec.setWidth_eq]
    exact decodes_pure _

/-! The planes. -/

/-- The bits that planes next to each other may be coded by. -/
inductive CodedPlanes (width positionWidth : ℕ) : List Word → List Bool → Prop
  | run {n : ℕ} (h : n < 2 ^ 5) :
      CodedPlanes width positionWidth (List.replicate (n + 2) 0) (bitsOf 2 2 ++ bitsOf n 5)
  | zero : CodedPlanes width positionWidth [0] (bitsOf 4 3)
  | mask : CodedPlanes width positionWidth [bpcMask width] (bitsOf 0 5)
  | adjacent {first : ℕ} (h : first < width) : CodedPlanes width positionWidth [3#32 <<< first]
      (bitsOf 8 5 ++ bitsOf first positionWidth)
  | one {first : ℕ} (h : first < width) : CodedPlanes width positionWidth [1#32 <<< first]
      (bitsOf 24 5 ++ bitsOf first positionWidth)
  | literal {plane : Word} (h : plane.toNat < 2 ^ width) :
      CodedPlanes width positionWidth [plane] (bitsOf 1 1 ++ bitsOf plane.toNat width)

/-- The lowest bit of a plane is one of its bits. -/
theorem countTrailingZeros_lt (hzero : plane ≠ 0) (h : plane.toNat < 2 ^ width) :
    countTrailingZeros plane < width := by
  obtain ⟨hdvd, -⟩ := countTrailingZeros_spec hzero
  have hpos : 0 < plane.toNat := BitVec.toNat_pos_of_ne_zero hzero
  exact (Nat.pow_lt_pow_iff_right (by decide)).mp ((Nat.le_of_dvd hpos hdvd).trans_lt h)

theorem bpcPutPlane_coded (h : writer.Holds l) (hzero : plane ≠ 0) (hlt : plane.toNat < 2 ^ width) :
    ∃ t, CodedPlanes width positionWidth [plane] t ∧
      (bpcPutPlane width positionWidth writer plane).Holds (l ++ t) := by
  have hfirst := countTrailingZeros_lt hzero hlt
  unfold bpcPutPlane
  dsimp only
  by_cases hmask : plane = bpcMask width
  · rw [if_pos hmask]
    exact ⟨_, hmask ▸ .mask, h.put 0 5⟩
  rw [if_neg hmask]
  by_cases htwo : popcount plane = 2 ∧ countTrailingZeros plane + 1 < width ∧
      (plane >>> (countTrailingZeros plane + 1)) &&& 1 ≠ 0
  · have hplane := eq_shift_of_popcount_two htwo.1 htwo.2.2
    rw [if_pos htwo]
    refine ⟨bitsOf 8 5 ++ bitsOf (countTrailingZeros plane) positionWidth, ?_, ?_⟩
    · nth_rewrite 1 [hplane]
      exact .adjacent hfirst
    · exact h.put_put 8 5 _ positionWidth
  rw [if_neg htwo]
  by_cases hone : popcount plane = 1
  · have hplane := eq_shift_of_popcount_one hone
    rw [if_pos hone]
    refine ⟨bitsOf 24 5 ++ bitsOf (countTrailingZeros plane) positionWidth, ?_, ?_⟩
    · nth_rewrite 1 [hplane]
      exact .one hfirst
    · exact h.put_put 24 5 _ positionWidth
  rw [if_neg hone]
  refine ⟨_, .literal hlt, ?_⟩
  exact h.put_put 1 1 plane.toNat width

/-- Every code is read as the planes it stands for. -/
theorem bpcReadPlane_decodes {planes : List Word} (dbx : List Word)
    (hlen : dbx.length + planes.length ≤ 32) (hposition : width ≤ 2 ^ positionWidth)
    (h : CodedPlanes width positionWidth planes t) :
    Decodes BitReader.Before (bpcReadPlane width positionWidth dbx) t (dbx ++ planes) := by
  have hzero : Decodes BitReader.Before (get 1) (bitsOf 0 1) 0 := get_decodes (by decide)
  have hone : Decodes BitReader.Before (get 1) (bitsOf 1 1) 1 := get_decodes (by decide)
  cases h with
  | @run n hn =>
    rw [List.length_replicate] at hlen
    change Decodes _ _ (bitsOf 0 1 ++ (bitsOf 1 1 ++ bitsOf n 5)) _
    refine hzero.bind (hone.bind ((get_decodes hn).last ?_))
    rw [if_neg (by omega)]
    exact decodes_pure _
  | zero =>
    change Decodes _ _ (bitsOf 0 1 ++ (bitsOf 0 1 ++ bitsOf 1 1)) _
    exact hzero.bind (hzero.bind (hone.last (decodes_pure _)))
  | mask =>
    change Decodes _ _ (bitsOf 0 1 ++ (bitsOf 0 1 ++ (bitsOf 0 1 ++ bitsOf 0 2))) _
    exact hzero.bind (hzero.bind (hzero.bind ((get_decodes (by decide)).last (decodes_pure _))))
  | @adjacent first hfirst =>
    change Decodes _ _ (bitsOf 0 1 ++ (bitsOf 0 1 ++ (bitsOf 0 1 ++ (bitsOf 1 2 ++
      bitsOf first positionWidth)))) _
    refine hzero.bind (hzero.bind (hzero.bind ((get_decodes (by decide)).bind
      ((get_decodes (hfirst.trans_le hposition)).last ?_))))
    rw [if_neg (by omega)]
    exact decodes_pure _
  | @one first hfirst =>
    change Decodes _ _ (bitsOf 0 1 ++ (bitsOf 0 1 ++ (bitsOf 0 1 ++ (bitsOf 3 2 ++
      bitsOf first positionWidth)))) _
    refine hzero.bind (hzero.bind (hzero.bind ((get_decodes (by decide)).bind
      ((get_decodes (hfirst.trans_le hposition)).last ?_))))
    rw [if_neg (by omega)]
    exact decodes_pure _
  | literal hlt =>
    refine hone.bind ((get_decodes hlt).last ?_)
    rw [BitVec.ofNat_toNat, BitVec.setWidth_eq]
    exact decodes_pure _

/-! The loops over the planes. -/

/-- A sequence of codes. -/
inductive CodedRuns (width positionWidth : ℕ) : List Word → List Bool → Prop
  | nil : CodedRuns width positionWidth [] []
  | cons {planes rest : List Word} {t u : List Bool} (h : CodedPlanes width positionWidth planes t)
      (hrest : CodedRuns width positionWidth rest u) :
      CodedRuns width positionWidth (planes ++ rest) (t ++ u)

variable {planes dbx : List Word} {i : ℕ}

theorem CodedRuns.snoc {u : List Bool} (h : CodedRuns width positionWidth dbx t)
    (hlast : CodedPlanes width positionWidth planes u) :
    CodedRuns width positionWidth (dbx ++ planes) (t ++ u) := by
  induction h with
  | nil =>
    have hone := CodedRuns.cons hlast .nil
    rwa [List.append_nil, List.append_nil] at hone
  | cons hfirst _ ih =>
    rw [List.append_assoc, List.append_assoc]
    exact .cons hfirst ih

/-- A run of zeros stays inside the planes and fits its field. -/
theorem zeroRun_spec (hi : i < dbx.length) (hzero : dbx.getD i 0 = 0) :
    1 ≤ zeroRun dbx i ∧ zeroRun dbx i ≤ 33 ∧ i + zeroRun dbx i ≤ dbx.length ∧
      ∀ k < zeroRun dbx i, dbx.getD (i + k) 0 = 0 := by
  refine @WhileLoop.run_invariant _ _ (fun run => 1 ≤ run ∧ run ≤ 33 ∧ i + run ≤ dbx.length ∧
    ∀ k < run, dbx.getD (i + k) 0 = 0) ?_ 33 1 ?_
  · rintro run run' ⟨hmin, hmax, hend, hall⟩ hstep
    unfold zeroRunStep at hstep
    split at hstep
    · rename_i hmore
      cases hstep
      refine ⟨by omega, by omega, by omega, fun k hk => ?_⟩
      by_cases hlast : k = run
      · subst hlast
        exact hmore.2.1
      · exact hall k (by omega)
    · cases hstep
  · refine ⟨by omega, by omega, hi, fun k hk => ?_⟩
    obtain rfl : k = 0 := by omega
    exact hzero

/-- What the loop has written once it has passed `i` planes. -/
structure PlanesWritten (width positionWidth : ℕ) (dbx : List Word) (l : List Bool)
    (state : ℕ × BitWriter) : Prop where
  le : state.1 ≤ dbx.length
  coded : ∃ t, CodedRuns width positionWidth (dbx.take state.1) t ∧ state.2.Holds (l ++ t)

/-- Planes that follow those passed. -/
theorem PlanesWritten.more {state : ℕ × BitWriter} {writer' : BitWriter}
    (h : PlanesWritten width positionWidth dbx l state) (hn : state.1 + n ≤ dbx.length)
    (hcoded : CodedPlanes width positionWidth ((dbx.drop state.1).take n) t)
    (hput : ∀ l, state.2.Holds l → writer'.Holds (l ++ t)) :
    PlanesWritten width positionWidth dbx l (state.1 + n, writer') := by
  obtain ⟨u, hruns, hholds⟩ := h.coded
  refine ⟨hn, u ++ t, ?_, ?_⟩
  · rw [List.take_add]
    exact hruns.snoc hcoded
  · rw [← List.append_assoc]
    exact hput _ hholds

theorem bpcEncodeStep_written (hlt : ∀ plane ∈ dbx, plane.toNat < 2 ^ width)
    (state state' : ℕ × BitWriter) (h : PlanesWritten width positionWidth dbx l state)
    (hstep : bpcEncodeStep width positionWidth dbx state = some state') :
    PlanesWritten width positionWidth dbx l state' ∧ state.1 < state'.1 := by
  obtain ⟨i, writer⟩ := state
  unfold bpcEncodeStep at hstep
  dsimp only at hstep
  split at hstep
  · rename_i hi
    have hget : dbx.getD i 0 = dbx[i] := List.getD_eq_getElem _ _ hi
    split at hstep
    · rename_i hzero
      cases hstep
      obtain ⟨hmin, hmax, hend, hall⟩ := zeroRun_spec hi hzero
      generalize zeroRun dbx i = run at hmin hmax hend hall
      have hrun : (dbx.drop i).take run = List.replicate run 0 := by
        refine List.ext_getElem (by simp; omega) fun k hk _ => ?_
        rw [List.length_take, List.length_drop] at hk
        have hk' := hall k (by omega)
        rw [List.getD_eq_getElem _ _ (by omega)] at hk'
        rw [List.getElem_take, List.getElem_drop, List.getElem_replicate, hk']
      refine ⟨?_, by dsimp only; omega⟩
      by_cases hone : run = 1
      · subst hone
        rw [if_pos rfl]
        exact h.more hend (hrun ▸ .zero) fun l hl => hl.put 4 3
      · obtain ⟨n, rfl⟩ : ∃ n, run = n + 2 := ⟨run - 2, by omega⟩
        rw [if_neg hone, Nat.add_sub_cancel]
        have hcoded : CodedPlanes width positionWidth ((dbx.drop i).take (n + 2))
            (bitsOf 2 2 ++ bitsOf n 5) := by
          rw [hrun]
          exact .run (by omega)
        refine h.more hend hcoded fun l hl => ?_
        exact hl.put_put 2 2 n 5
    · rename_i hzero
      cases hstep
      obtain ⟨u, hruns, hholds⟩ := h.coded
      have hplane := hlt dbx[i] (List.getElem_mem hi)
      rw [hget] at hzero ⊢
      obtain ⟨t, hcoded, hput⟩ := bpcPutPlane_coded hholds hzero hplane
      refine ⟨⟨hi, u ++ t, ?_, ?_⟩, Nat.lt_succ_self i⟩
      · rw [List.take_succ_eq_append_getElem hi]
        exact hruns.snoc hcoded
      · rw [← List.append_assoc]
        exact hput
  · cases hstep

/-- The loop writes codes of all planes. -/
theorem run_bpcEncodeStep (hlt : ∀ plane ∈ dbx, plane.toNat < 2 ^ width) (h : writer.Holds l) :
    ∃ t, CodedRuns width positionWidth dbx t ∧
      (WhileLoop.run (bpcEncodeStep width positionWidth dbx) dbx.length (0, writer)).2.Holds
        (l ++ t) := by
  have hstart : PlanesWritten width positionWidth dbx l (0, writer) := by
    refine ⟨Nat.zero_le _, [], .nil, ?_⟩
    rwa [List.append_nil]
  have hinv := fun state state' hs hstep =>
    (@bpcEncodeStep_written l width positionWidth dbx hlt state state' hs hstep).1
  have hwritten := WhileLoop.run_invariant hinv dbx.length hstart
  have hhalted := WhileLoop.run_halts hinv (fun state => dbx.length - state.1)
    (fun state state' hs hstep => by
      obtain ⟨hwritten, hless⟩ := bpcEncodeStep_written hlt state state' hs hstep
      have hle := hwritten.le
      omega) hstart (Nat.le_of_eq (Nat.sub_zero dbx.length))
  generalize WhileLoop.run (bpcEncodeStep width positionWidth dbx) dbx.length (0, writer) = final
    at hwritten hhalted
  obtain ⟨hle, t, hruns, hholds⟩ := hwritten
  have hend : dbx.length ≤ final.1 := by
    by_contra hmore
    unfold bpcEncodeStep at hhalted
    dsimp only at hhalted
    rw [if_pos (by omega)] at hhalted
    split at hhalted
    · cases hhalted
    · cases hhalted
  rw [List.take_of_length_le hend] at hruns
  exact ⟨t, hruns, hholds⟩

/-- The loop of the decoder reads all planes. -/
theorem bpcReadPlanes_decodes (hposition : width ≤ 2 ^ positionWidth)
    (h : CodedRuns width positionWidth planes t) (hn : planes.length ≤ n)
    (hlen : dbx.length + planes.length = 32) :
    Decodes BitReader.Before (bpcReadPlanes width positionWidth n dbx) t (dbx ++ planes) := by
  induction h generalizing n dbx with
  | nil =>
    have hdone : bpcReadPlanes width positionWidth n dbx = pure dbx := by
      rw [List.length_nil] at hlen
      cases n with
      | zero => rfl
      | succ n => rw [bpcReadPlanes, if_neg (by omega)]
    rw [hdone, List.append_nil]
    exact decodes_pure dbx
  | @cons planes rest t u hfirst _ ih =>
    have hpos : 0 < planes.length := by
      cases hfirst with
      | run => simp
      | _ => exact Nat.one_pos
    rw [List.length_append] at hn hlen
    cases n with
    | zero => omega
    | succ n =>
      have hread := bpcReadPlane_decodes dbx (by omega) hposition hfirst
      have hloop := @ih n (dbx ++ planes) (by omega) (by rw [List.length_append]; omega)
      rw [bpcReadPlanes, if_pos (by omega), ← List.append_assoc]
      exact hread.bind hloop

/-! The transforms and their inverses. -/

theorem length_bpcDbx (planes : List Word) : (bpcDbx planes).length = 32 := by
  simp [bpcDbx]

theorem getD_bpcDbx_succ (planes : List Word) (hi : i < 31) :
    (bpcDbx planes).getD (i + 1) 0 = planes.getD (30 - i) 0 ^^^ planes.getD (30 - i + 1) 0 := by
  have hlen : i < ((List.range 31).reverse.map fun bit =>
      planes.getD bit 0 ^^^ planes.getD (bit + 1) 0).length := by simpa using hi
  rw [bpcDbx, List.getD_cons_succ, List.getD_eq_getElem _ _ hlen, List.getElem_map,
    List.getElem_reverse, List.getElem_range, List.length_range]

theorem getD_bpcPlanes_lt (deltas : List Word) (width j : ℕ) :
    ((bpcPlanes deltas width).getD j 0).toNat < 2 ^ width := by
  by_cases hj : j < 32
  · rw [List.getD_eq_getElem _ _ (by simpa [bpcPlanes] using hj)]
    unfold bpcPlanes
    rw [List.getElem_map]
    exact gather_lt deltas _
  · rw [List.getD_eq_default _ _ (by simpa [bpcPlanes] using hj)]
    exact Nat.two_pow_pos width

/-- Differences of small planes are small. -/
theorem bpcDbx_lt (h : ∀ j, (planes.getD j 0).toNat < 2 ^ n) {plane : Word}
    (hplane : plane ∈ bpcDbx planes) : plane.toNat < 2 ^ n := by
  cases List.mem_cons.mp hplane with
  | inl hfirst =>
    rw [hfirst]
    exact h 31
  | inr hrest =>
    obtain ⟨bit, -, rfl⟩ := List.mem_map.mp hrest
    rw [BitVec.toNat_xor]
    exact Nat.xor_lt_two_pow (h bit) (h (bit + 1))

/-- From the highest plane down, every plane is restored from the one above. -/
theorem foldl_bpcPlanesStep (h : planes.length = 32) (hn : n ≤ 31) :
    let rows := (List.range n).foldl (bpcPlanesStep (bpcDbx planes))
      ((List.replicate 32 0).set 31 ((bpcDbx planes).getD 0 0))
    rows.length = 32 ∧ ∀ j, 31 - n ≤ j → j < 32 → rows[j]? = planes[j]? := by
  induction n with
  | zero =>
    refine ⟨by simp, fun j hj hlt => ?_⟩
    obtain rfl : j = 31 := by omega
    simp [bpcDbx, h]
  | succ n ih =>
    obtain ⟨hlen, hsame⟩ := ih (by omega)
    rw [List.range_succ, List.foldl_append, List.foldl_cons, List.foldl_nil]
    generalize (List.range n).foldl (bpcPlanesStep (bpcDbx planes))
      ((List.replicate 32 0).set 31 ((bpcDbx planes).getD 0 0)) = rows at hlen hsame
    have hindex : 31 - (n + 1) + 1 = 30 - n + 1 := by omega
    have hplane : (bpcDbx planes).getD (n + 1) 0 ^^^ rows.getD (31 - (n + 1) + 1) 0 =
        planes.getD (30 - n) 0 := by
      have habove : rows.getD (30 - n + 1) 0 = planes.getD (30 - n + 1) 0 := by
        rw [List.getD_eq_getElem?_getD, List.getD_eq_getElem?_getD, hsame _ (by omega) (by omega)]
      rw [hindex, getD_bpcDbx_succ planes (by omega), habove, BitVec.xor_assoc, BitVec.xor_self,
        BitVec.xor_zero]
    rw [bpcPlanesStep, hplane]
    refine ⟨by rw [List.length_set, hlen], fun j hj hlt => ?_⟩
    by_cases hnew : 31 - (n + 1) = j
    · have hj : j = 30 - n := by omega
      rw [List.getElem?_set, if_pos hnew, if_pos (by omega), hj, List.getD_eq_getElem?_getD,
        List.getElem?_eq_getElem (by omega)]
      rfl
    · rw [List.getElem?_set_ne hnew]
      exact hsame j (by omega) hlt

theorem bpcPlanesOf_bpcDbx (h : planes.length = 32) : bpcPlanesOf (bpcDbx planes) = planes := by
  obtain ⟨hlen, hall⟩ := foldl_bpcPlanesStep h (Nat.le_refl 31)
  rw [← bpcPlanesOf] at hlen hall
  apply List.ext_getElem?
  intro j
  by_cases hj : j < 32
  · exact hall j (by omega) hj
  · rw [List.getElem?_eq_none (by omega), List.getElem?_eq_none (by omega)]

theorem bpcDeltasOf_bpcPlanes {deltas : List Word} (hlen : deltas.length = width)
    (hw : width ≤ 32) : bpcDeltasOf (bpcPlanes deltas width) width = deltas := by
  rw [bpcDeltasOf, foldl_mapIdx]
  refine List.ext_getElem (by simp [hlen]) fun i hi hi' => ?_
  rw [List.getElem_mapIdx, List.getElem_replicate]
  have htwice := @gather_planes 32 deltas width i (by omega) (by omega)
  rw [List.getD_eq_getElem _ _ hi'] at htwice
  exact htwice

/-- Adding up the differences gives the symbols back. -/
theorem bpcOutput_bpcDeltas {symbols : List Word} (h : symbols.length = width + 1) :
    bpcOutput (symbols.getD 0 0) (bpcDeltas symbols width) = symbols.flatMap store32 := by
  have hall : (List.range (width + 1)).map (fun i => symbols.getD i 0) = symbols := by
    refine List.ext_getElem (by simp [h]) fun i _ hi => ?_
    rw [List.getElem_map, List.getElem_range, List.getD_eq_getElem _ _ hi]
  have hloop : ∀ width, (bpcDeltas symbols width).foldl
      (fun (value, out) delta => (value + delta, out ++ valueBytes (value + delta)))
      (symbols.getD 0 0, valueBytes (symbols.getD 0 0)) =
      (symbols.getD width 0,
        ((List.range (width + 1)).map fun i => symbols.getD i 0).flatMap store32) := by
    intro width
    induction width with
    | zero => rfl
    | succ n ih =>
      have hadd : symbols.getD n 0 + (symbols.getD (n + 1) 0 - symbols.getD n 0) =
          symbols.getD (n + 1) 0 := by
        rw [BitVec.add_comm, BitVec.sub_add_cancel]
      rw [bpcDeltas] at ih
      rw [bpcDeltas, List.range_succ, List.map_append, List.foldl_append, ih,
        List.map_singleton, List.foldl_cons, List.foldl_nil]
      dsimp only
      rw [hadd, List.range_succ (n := n + 1), List.map_append, List.flatMap_append,
        List.map_singleton, List.flatMap_singleton]
      rfl
  rw [bpcOutput, hloop, hall]

/-- Decoding what encoding wrote gives the block back. -/
theorem bpc_round_trip {block : Block} (hmin : 8 ≤ block.length) (hmax : block.length ≤ 128)
    (h4 : block.length % 4 = 0) :
    ∃ encoded, bpcEncode block = .ok encoded ∧ bpcDecode encoded block.length = .ok block := by
  obtain ⟨values, hvalues, hsymbols⟩ := valuesForWidth_word h4
  have hwords : block.length = block.length / 4 * 4 := by omega
  have hstored := FpcBsel.flatMap_store32_wordsTo hwords
  have hcount := FpcBsel.length_wordsTo block (block.length / 4)
  rw [← hsymbols] at hstored hcount
  generalize hsymbolList : (values.map (BitVec.ofNat 32) : List Word) = symbols at hstored hcount
  obtain ⟨width, hwidth⟩ : ∃ width, block.length / 4 = width + 1 :=
    ⟨block.length / 4 - 1, by omega⟩
  rw [hwidth] at hcount
  have hposition : width ≤ 2 ^ ceilLog2 (width + 1) := by
    have hclog := Nat.le_pow_clog (show 1 < 2 by decide) (width + 1)
    rw [ceilLog2_eq (by omega)]
    omega
  have hdeltas : (bpcDeltas symbols width).length = width := by simp [bpcDeltas]
  have hplanes : (bpcPlanes (bpcDeltas symbols width) width).length = 32 := by simp [bpcPlanes]
  obtain ⟨t, hbase, hput⟩ := bpcPutBase_coded holds_empty (symbols.getD 0 0)
  have hsmall : ∀ plane ∈ bpcDbx (bpcPlanes (bpcDeltas symbols width) width),
      plane.toNat < 2 ^ width := fun _ hplane => bpcDbx_lt (getD_bpcPlanes_lt _ width) hplane
  obtain ⟨u, hruns, hholds⟩ := @run_bpcEncodeStep _ _ width (ceilLog2 (width + 1)) _ hsmall hput
  rw [List.nil_append] at hholds
  refine ⟨toOctets (t ++ u), ?_, ?_⟩
  · rw [bpcEncode, throwIf_neg (by omega), ok_bind, hvalues, ok_bind, hsymbolList]
    dsimp only
    rw [hcount]
    exact congrArg Except.ok hholds.bytes_eq
  · have hlen := length_bpcDbx (bpcPlanes (bpcDeltas symbols width) width)
    have hloop := @bpcReadPlanes_decodes _ _ _ 32 _ [] hposition hruns hlen.le
      (by rw [hlen]; rfl)
    have hread : Decodes BitReader.Before (bpcReadBlock (width + 1)) (t ++ u) block := by
      refine (bpcReadBase_decodes hbase).bind (hloop.last ?_)
      rw [List.nil_append, bpcPlanesOf_bpcDbx hplanes, Nat.add_sub_cancel,
        bpcDeltasOf_bpcPlanes hdeltas (by omega), bpcOutput_bpcDeltas hcount, hstored]
      exact decodes_pure block
    obtain ⟨reader, hrun⟩ := run_of_decodes hread
    rw [bpcDecode, throwIf_neg (by omega), ok_bind, hwidth, hrun]
    rfl

/-- Symbols whose planes are coded in all six ways. -/
def exampleSymbols : Block := [1, 0, 0, 0, 7, 0, 0, 0, 2, 0, 0, 0, 7, 3, 0, 0]

theorem exampleSymbols_bpc_round_trip : ∃ encoded, bpcEncode exampleSymbols = .ok encoded ∧
    bpcDecode encoded exampleSymbols.length = .ok exampleSymbols :=
  bpc_round_trip (by decide) (by decide) (by decide)

end ByteSelect.Baseline
