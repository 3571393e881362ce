import UhmiIviWm.Model.ParseJson

/-!
# Values that an object gives

jansson delivers integers of 64 bits, with a sign, and `get_json_integer_value`
assigns them to 32 bits without one. What is held is the integer that was sent just
where that lies in 0..2^32-1 (`low32_exact_iff`, `denotes_iff`). `HasInteger`,
`HasNumber` and `LayoutProperties.Describes` say what an object gives, as the
document has it; the reads deliver that, but not only that (`hasInteger_iff`).
-/

namespace UhmiIviWm

/-- The integers a `t_ilm_uint` can hold. -/
def InRange (n : Int64) : Prop := 0 ≤ n.toInt ∧ n.toInt < 4294967296

instance (n : Int64) : Decidable (InRange n) :=
  inferInstanceAs (Decidable (0 ≤ n.toInt ∧ n.toInt < 4294967296))

/-- What the assignment leaves of an integer. -/
def low32 (n : Int64) : TIlmUint := n.toUInt64.toUInt32

theorem low32_exact_iff {n : Int64} : ((low32 n).toNat : Int) = n.toInt ↔ InRange n := by
  have hint : n.toInt = n.toUInt64.toBitVec.toInt := rfl
  have hnat : n.toUInt64.toBitVec.toNat = n.toUInt64.toNat := rfl
  have hn := n.toUInt64.toNat_lt
  rw [InRange, low32, hint, BitVec.toInt_eq_toNat_cond, UInt64.toNat_toUInt32]
  split <;> omega

theorem InRange.inj {n n' : Int64} (h : InRange n) (h' : InRange n') (heq : low32 n = low32 n') :
    n = n' := by
  apply Int64.toInt_inj.mp
  calc n.toInt = ((low32 n).toNat : Int) := (low32_exact_iff.mpr h).symm
    _ = ((low32 n').toNat : Int) := by rw [heq]
    _ = n'.toInt := low32_exact_iff.mpr h'

/-- The value is the integer. -/
def Denotes (n : Int64) (id : Id) : Prop := n.toInt = (id.toNat : Int)

instance (n : Int64) (id : Id) : Decidable (Denotes n id) :=
  inferInstanceAs (Decidable (n.toInt = (id.toNat : Int)))

/-- An integer that is an id is held as it. -/
theorem denotes_iff {n : Int64} {id : Id} : Denotes n id ↔ InRange n ∧ low32 n = id := by
  constructor
  · intro h
    have hrange : InRange n := by
      have hid := id.toNat_lt
      rw [InRange, h]
      omega
    refine ⟨hrange, UInt32.toNat_inj.mp (Int.ofNat_inj.mp ?_)⟩
    exact (low32_exact_iff.mpr hrange).trans h
  · rintro ⟨hrange, rfl⟩
    exact (low32_exact_iff.mpr hrange).symm

/-! ## The integers of an object -/

/-- The integer an object has under a key. -/
def integerAt (obj : Json) (key : String) : Option Int64 :=
  match jsonObjectGet (some obj) key with
  | some (.integer n) => some n
  | _ => none

theorem getJsonIntegerValue_eq (obj : Json) (key : String) :
    getJsonIntegerValue (some obj) key = (integerAt obj key).map low32 := by
  unfold getJsonIntegerValue integerAt
  cases jsonObjectGet (some obj) key with
  | none => rfl
  | some j => cases j <;> rfl

theorem getJsonIntegerValue_of_integerAt {obj : Json} {key : String} {n : Int64}
    (hn : integerAt obj key = some n) : getJsonIntegerValue (some obj) key = some (low32 n) := by
  rw [getJsonIntegerValue_eq, hn, Option.map_some]

/-- The object has under `key` the integer `v`, between 0 and 2^32 - 1. -/
def HasInteger (obj : Json) (key : String) (v : TIlmUint) : Prop :=
  ∃ n : Int64, jsonObjectGet (some obj) key = some (.integer n) ∧ n.toInt = v.toNat

/-- The object has under `key` a number that is `v` in single precision. -/
def HasNumber (obj : Json) (key : String) (v : TIlmFloat) : Prop :=
  (∃ x : Float, jsonObjectGet (some obj) key = some (.real x) ∧ x.toFloat32 = v) ∨
    ∃ n : Int64, jsonObjectGet (some obj) key = some (.integer n) ∧ n.toFloat32 = v

section Reads

variable {obj : Json} {key : String}

theorem integerAt_eq_some {n : Int64} :
    integerAt obj key = some n ↔ jsonObjectGet (some obj) key = some (.integer n) := by
  unfold integerAt
  cases jsonObjectGet (some obj) key with
  | none => exact iff_of_false nofun nofun
  | some j => cases j <;> simp

/-- A value that was read is the value that was given where that fits. -/
theorem hasInteger_iff {v : TIlmUint} (h : getJsonIntegerValue (some obj) key = some v) :
    HasInteger obj key v ↔ ∀ n, integerAt obj key = some n → InRange n := by
  rw [getJsonIntegerValue_eq] at h
  obtain ⟨n, hn, rfl⟩ := Option.map_eq_some_iff.mp h
  constructor
  · rintro ⟨n', hn', hdenotes⟩ m hm
    rw [integerAt_eq_some.mpr hn'] at hm
    cases hm
    exact (denotes_iff.mp hdenotes).1
  · exact fun hrange =>
      ⟨n, integerAt_eq_some.mp hn, denotes_iff.mpr ⟨hrange n hn, rfl⟩⟩

theorem HasInteger.get {v : TIlmUint} (h : HasInteger obj key v) :
    getJsonIntegerValue (some obj) key = some v := by
  obtain ⟨n, hn, hv⟩ := h
  rw [getJsonIntegerValue, hn]
  exact congrArg some (denotes_iff.mp hv).2

theorem hasNumber_iff {v : TIlmFloat} :
    HasNumber obj key v ↔ getJsonRealValue (some obj) key = some v := by
  unfold HasNumber getJsonRealValue
  cases jsonObjectGet (some obj) key with
  | none => simp
  | some j => cases j <;> simp

end Reads

/-! ## Layouts -/

/-- The integer fields of a layout. -/
def layoutFields : List (String × (LayoutProperties → TIlmUint)) :=
  [(jsonKeySrcx, (·.srcX)), (jsonKeySrcy, (·.srcY)), (jsonKeySrcw, (·.srcW)),
    (jsonKeySrch, (·.srcH)), (jsonKeyDstx, (·.dstX)), (jsonKeyDsty, (·.dstY)),
    (jsonKeyDstw, (·.dstW)), (jsonKeyDsth, (·.dstH)), (jsonKeyVisibility, (·.visibility))]

/-- The object says what the layout is, each integer as it stands there. -/
structure LayoutProperties.Describes (lp : LayoutProperties) (obj : Json) : Prop where
  srcX : HasInteger obj jsonKeySrcx lp.srcX
  srcY : HasInteger obj jsonKeySrcy lp.srcY
  srcW : HasInteger obj jsonKeySrcw lp.srcW
  srcH : HasInteger obj jsonKeySrch lp.srcH
  dstX : HasInteger obj jsonKeyDstx lp.dstX
  dstY : HasInteger obj jsonKeyDsty lp.dstY
  dstW : HasInteger obj jsonKeyDstw lp.dstW
  dstH : HasInteger obj jsonKeyDsth lp.dstH
  opacity : HasNumber obj jsonKeyOpacity lp.opacity
  visibility : HasInteger obj jsonKeyVisibility lp.visibility

section Layouts

variable {lp : LayoutProperties} {obj : Json}

theorem describes_iff : lp.Describes obj ↔
    (∀ field ∈ layoutFields, HasInteger obj field.1 (field.2 lp)) ∧
      HasNumber obj jsonKeyOpacity lp.opacity := by
  simp only [layoutFields, List.forall_mem_cons, List.not_mem_nil, false_implies, implies_true,
    and_true]
  constructor
  · exact fun h => ⟨⟨h.srcX, h.srcY, h.srcW, h.srcH, h.dstX, h.dstY, h.dstW, h.dstH,
      h.visibility⟩, h.opacity⟩
  · rintro ⟨⟨hsrcX, hsrcY, hsrcW, hsrcH, hdstX, hdstY, hdstW, hdstH, hvisibility⟩, hopacity⟩
    exact ⟨hsrcX, hsrcY, hsrcW, hsrcH, hdstX, hdstY, hdstW, hdstH, hopacity, hvisibility⟩

theorem LayoutProperties.Describes.read (h : lp.Describes obj) :
    readAddProperties (some obj) = some lp := by
  simp only [readAddProperties, h.srcX.get, h.srcY.get, h.srcW.get, h.srcH.get, h.dstX.get,
    h.dstY.get, h.dstW.get, h.dstH.get, hasNumber_iff.mp h.opacity, h.visibility.get]
  rfl

end Layouts

/-! ## Batches -/

/-- The objects have exactly these integers as ids, in order. -/
def HaveIntegers (objs : List Json) (ns : List Int64) : Prop :=
  objs.map (fun obj => integerAt obj jsonKeyId) = ns.map some

end UhmiIviWm
