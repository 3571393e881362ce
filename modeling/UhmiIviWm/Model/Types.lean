/-!
# Data of the window manager

The types of `comm_parser.h`. The `t_ilm_*` types come from the ilm headers:
`t_ilm_uint` is a 32-bit unsigned integer, `t_ilm_float` a single-precision
float, and `t_ilm_bool` is taken to be as wide as `t_ilm_uint`, which is how
`parse_add_properties` writes it. Ids travel through the code as `int` and as
`unsigned int` and are only ever compared for equality, so one 32-bit type
stands for both.
-/

namespace UhmiIviWm

abbrev TIlmUint := UInt32
abbrev TIlmFloat := Float32
abbrev TIlmBool := UInt32

/-- An id, as `int` or as `unsigned int`. -/
abbrev Id := TIlmUint

structure LayoutProperties where
  srcX : TIlmUint
  srcY : TIlmUint
  srcW : TIlmUint
  srcH : TIlmUint
  dstX : TIlmUint
  dstY : TIlmUint
  dstW : TIlmUint
  dstH : TIlmUint
  opacity : TIlmFloat
  visibility : TIlmBool

structure LayerProperties where
  width : TIlmUint
  height : TIlmUint
  lp : LayoutProperties

structure SurfaceProperties where
  referredCnt : UInt32
  lp : LayoutProperties

/-- `calloc`ed properties. -/
def LayoutProperties.zero : LayoutProperties :=
  ⟨0, 0, 0, 0, 0, 0, 0, 0, .ofBits 0, 0⟩

def LayerProperties.zero : LayerProperties := ⟨0, 0, .zero⟩

def SurfaceProperties.zero : SurfaceProperties := ⟨0, .zero⟩

/-- A list element: its id, what `prop` points to, and its lower list. -/
structure ListElement (Prop' Elem : Type) where
  id : Id
  prop : Prop'
  listHead : List Elem

/-- A surface in the list of a layer carries no properties of its own. -/
abbrev SurfaceElm := ListElement Unit Empty

abbrev LayerElm := ListElement LayerProperties SurfaceElm

abbrev ScreenElm := ListElement Unit LayerElm

/-- An entry of `surface_properties_head`. -/
abbrev SurfacePropertiesElm := ListElement SurfaceProperties Empty

inductive CmdType where
  | none
  | add
  | mod
deriving DecidableEq

inductive InsertOrder where
  | none
  | prepend
  | append
  | before
  | after
deriving DecidableEq

structure InsertInfo where
  order : InsertOrder
  refid : Id
deriving DecidableEq

def insertInfoDefault : InsertInfo := ⟨.append, 0⟩

/-- What the locals `layer_prop` and `surface_prop` of one call hold before
anything is written to them. -/
structure Frame where
  layerProp : LayerProperties
  surfaceProp : SurfaceProperties

def Frame.zero : Frame := ⟨.zero, .zero⟩

/-- The ways the process ends early: `wrap_ilm_exit`, a write through a null
pointer, a string copied past the end of its buffer. -/
inductive Abort where
  | ilmExit
  | nullDeref
  | bufferOverflow
deriving DecidableEq

end UhmiIviWm
