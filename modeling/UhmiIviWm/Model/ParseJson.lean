import UhmiIviWm.Model.Types

/-!
# Reading JSON objects

The `get_json_*` and `parse_*` functions of `comm_parser.c` that read an object
without touching the layout. A `json_t *` is an `Option Json`, `none` being
`NULL`; a function that returns `-1` and leaves its destination alone returns
`none`, and one that writes its destination on either path returns both.

`sprintf` into a caller's array is a write bounded by that array's size: a
string that does not fit, with its terminator, aborts with `bufferOverflow`.
-/

namespace UhmiIviWm

/-- A document as jansson delivers it: integers are 64-bit, reals are doubles,
strings hold no NUL. -/
inductive Json where
  | null
  | bool (b : Bool)
  | integer (n : Int64)
  | real (x : Float)
  | string (s : String)
  | array (xs : List Json)
  | object (fields : List (String × Json))

def uhmiIviWmVersion : String := "1.0.0"

def jsonKeyVersion : String := "version"
def jsonKeyCommand : String := "command"
def jsonKeyTarget : String := "target"
def jsonKeyHostname : String := "hostname"
def jsonKeyScreens : String := "screens"
def jsonKeyInsertodr : String := "insert_order"
def jsonKeyRefid : String := "referenceID"
def jsonKeyLayers : String := "layers"
def jsonKeySurfaces : String := "surfaces"
def jsonKeyId : String := "id"
def jsonKeyWidth : String := "width"
def jsonKeyHeight : String := "height"
def jsonKeySrcx : String := "src_x"
def jsonKeySrcy : String := "src_y"
def jsonKeySrcw : String := "src_w"
def jsonKeySrch : String := "src_h"
def jsonKeyDstx : String := "dst_x"
def jsonKeyDsty : String := "dst_y"
def jsonKeyDstw : String := "dst_w"
def jsonKeyDsth : String := "dst_h"
def jsonKeyOpacity : String := "opacity"
def jsonKeyVisibility : String := "visibility"

/-- `NULL` for a missing key and for anything that is not an object. -/
def jsonObjectGet (jobject : Option Json) (key : String) : Option Json :=
  match jobject with
  | some (.object fields) => fields.lookup key
  | _ => none

/-! ## Values -/

/-- `capacity` is the size of the caller's `value` array. -/
def getJsonStringValue (capacity : Nat) (jobject : Option Json) (key : String) :
    Except Abort (Option String) :=
  match jsonObjectGet jobject key with
  | some (.string s) =>
    if s.utf8ByteSize + 1 ≤ capacity then .ok (some s) else .error .bufferOverflow
  | _ => .ok none

/-- The assignment to a `t_ilm_uint` keeps the low 32 bits. -/
def getJsonIntegerValue (jobject : Option Json) (key : String) : Option TIlmUint :=
  match jsonObjectGet jobject key with
  | some (.integer n) => some n.toUInt64.toUInt32
  | _ => none

def getJsonRealValue (jobject : Option Json) (key : String) : Option TIlmFloat :=
  match jsonObjectGet jobject key with
  | some (.integer n) => some n.toFloat32
  | some (.real x) => some x.toFloat32
  | _ => none

def getJsonArray (jobject : Option Json) (key : String) : Option (List Json) :=
  match jsonObjectGet jobject key with
  | some (.array xs) => some xs
  | _ => none

def parseTarget (jobject : Option Json) : Option (List Json) :=
  getJsonArray jobject jsonKeyTarget

def parseScreens (jobject : Option Json) : Option (List Json) :=
  getJsonArray jobject jsonKeyScreens

def parseLayers (jobject : Option Json) : Option (List Json) :=
  getJsonArray jobject jsonKeyLayers

def parseSurfaces (jobject : Option Json) : Option (List Json) :=
  getJsonArray jobject jsonKeySurfaces

def parseId (jobject : Option Json) : Option Id :=
  getJsonIntegerValue jobject jsonKeyId

/-- `localHostname` is what `gethostname` delivers. -/
def parseHostname (localHostname : String) (jobject : Option Json) : Except Abort Int := do
  match ← getJsonStringValue 32 jobject jsonKeyHostname with
  | none => return -1
  | some hostname => return if localHostname = hostname then 0 else -1

def parseVersion (jobject : Option Json) : Except Abort Int := do
  match ← getJsonStringValue 32 jobject jsonKeyVersion with
  | none => return -1
  | some version => return if uhmiIviWmVersion = version then 0 else -1

def parseCommand (jobject : Option Json) : Except Abort (Option String) :=
  getJsonStringValue 16 jobject jsonKeyCommand

/-- The result code and the insert info; an order the code does not know, or
none at all, becomes `INSERT_ORDER_NONE`. -/
def parseInsertInfo (jobject : Option Json) (insertInfo : InsertInfo) :
    Except Abort (Int × InsertInfo) := do
  let (ret, order) : Int × InsertOrder ←
    match ← getJsonStringValue 32 jobject jsonKeyInsertodr with
    | none => pure (-1, .none)
    | some val => pure <|
      if "append" = val then (0, .append)
      else if "prepend" = val then (0, .prepend)
      else if "before" = val then (0, .before)
      else if "after" = val then (0, .after)
      else (-1, .none)
  match getJsonIntegerValue jobject jsonKeyRefid with
  | none => return (-1, ⟨order, insertInfo.refid⟩)
  | some refid => return (ret, ⟨order, refid⟩)

/-! ## Properties

The destination is copied, the copy is filled in, and it is copied back at the
end. -/

def parseModProperties (dstProp : LayoutProperties) (jobject : Option Json) :
    Int × LayoutProperties :=
  (0,
    { srcX := (getJsonIntegerValue jobject jsonKeySrcx).getD dstProp.srcX
      srcY := (getJsonIntegerValue jobject jsonKeySrcy).getD dstProp.srcY
      srcW := (getJsonIntegerValue jobject jsonKeySrcw).getD dstProp.srcW
      srcH := (getJsonIntegerValue jobject jsonKeySrch).getD dstProp.srcH
      dstX := (getJsonIntegerValue jobject jsonKeyDstx).getD dstProp.dstX
      dstY := (getJsonIntegerValue jobject jsonKeyDsty).getD dstProp.dstY
      dstW := (getJsonIntegerValue jobject jsonKeyDstw).getD dstProp.dstW
      dstH := (getJsonIntegerValue jobject jsonKeyDsth).getD dstProp.dstH
      opacity := (getJsonRealValue jobject jsonKeyOpacity).getD dstProp.opacity
      visibility := (getJsonIntegerValue jobject jsonKeyVisibility).getD dstProp.visibility })

/-- The ten fields read in order, the first one missing ending the read. -/
def readAddProperties (jobject : Option Json) : Option LayoutProperties := do
  let srcX ← getJsonIntegerValue jobject jsonKeySrcx
  let srcY ← getJsonIntegerValue jobject jsonKeySrcy
  let srcW ← getJsonIntegerValue jobject jsonKeySrcw
  let srcH ← getJsonIntegerValue jobject jsonKeySrch
  let dstX ← getJsonIntegerValue jobject jsonKeyDstx
  let dstY ← getJsonIntegerValue jobject jsonKeyDsty
  let dstW ← getJsonIntegerValue jobject jsonKeyDstw
  let dstH ← getJsonIntegerValue jobject jsonKeyDsth
  let opacity ← getJsonRealValue jobject jsonKeyOpacity
  let visibility ← getJsonIntegerValue jobject jsonKeyVisibility
  return { srcX, srcY, srcW, srcH, dstX, dstY, dstW, dstH, opacity, visibility }

def parseAddProperties (dstProp : LayoutProperties) (jobject : Option Json) :
    Int × LayoutProperties :=
  match readAddProperties jobject with
  | none => (-1, dstProp)
  | some srcProp => (0, srcProp)

/-- The result of `parse_add_properties` is not looked at. -/
def parseLayerProperties (dstProp : LayerProperties) (jobject : Option Json)
    (type : CmdType) : Int × LayerProperties :=
  if type = .add then
    match getJsonIntegerValue jobject jsonKeyWidth with
    | none => (-1, dstProp)
    | some width =>
      match getJsonIntegerValue jobject jsonKeyHeight with
      | none => (-1, dstProp)
      | some height => (0, ⟨width, height, (parseAddProperties dstProp.lp jobject).2⟩)
  else
    (0, ⟨(getJsonIntegerValue jobject jsonKeyWidth).getD dstProp.width,
      (getJsonIntegerValue jobject jsonKeyHeight).getD dstProp.height,
      (parseModProperties dstProp.lp jobject).2⟩)

def parseSurfaceProperties (dstProp : SurfaceProperties) (jobject : Option Json)
    (type : CmdType) : Int × SurfaceProperties :=
  if type = .add then
    (0, { dstProp with lp := (parseAddProperties dstProp.lp jobject).2 })
  else
    (0, { dstProp with lp := (parseModProperties dstProp.lp jobject).2 })

end UhmiIviWm
