import Mathlib.Data.List.Dedup
import UhmiIviWm.Model.EventLoop

/-!
# A compositor

An ilm library that keeps what it is told: which objects exist, the layer order
of each screen, the surface order of each layer, the geometry last set for each
object, and the surface notifications that are registered and not yet answered.

`Compositor.ilm strict` is this compositor as an `Ilm`. Where `strict` is set a
call succeeds exactly when the objects it names exist; otherwise every call
succeeds. A call that succeeds takes effect at once.
-/

namespace UhmiIviWm

structure Rectangle where
  x : TIlmUint
  y : TIlmUint
  w : TIlmUint
  h : TIlmUint

/-- The values last set for an object since it was created, if any. -/
structure Look where
  source : Option Rectangle
  destination : Option Rectangle
  opacity : Option TIlmFloat
  visibility : Option TIlmBool

def Look.unset : Look := ⟨none, none, none, none⟩

/-- The values a layout prescribes. -/
def LayoutProperties.look (lp : LayoutProperties) : Look where
  source := some ⟨lp.srcX, lp.srcY, lp.srcW, lp.srcH⟩
  destination := some ⟨lp.dstX, lp.dstY, lp.dstW, lp.dstH⟩
  opacity := some lp.opacity
  visibility := some lp.visibility

structure Compositor where
  screens : List Id
  layers : List Id
  surfaces : List Id
  /-- The layers of a screen, in order. -/
  screenOrder : Id → List Id
  /-- The surfaces of a layer, in order. -/
  layerOrder : Id → List Id
  layerLook : Id → Look
  surfaceLook : Id → Look
  pending : List Id

/-- A function changed at one id. -/
def setAt {α : Type} (f : Id → α) (id : Id) (a : α) : Id → α := fun x => if x = id then a else f x

namespace Compositor

def empty (screens : List Id) : Compositor where
  screens := screens
  layers := []
  surfaces := []
  screenOrder := fun _ => []
  layerOrder := fun _ => []
  layerLook := fun _ => .unset
  surfaceLook := fun _ => .unset
  pending := []

/-- Whether the objects a call names exist. -/
def names (c : Compositor) : IlmCall → Bool
  | .layerCreateWithDimension _ _ _ => true
  | .layerSetDestinationRectangle id _ _ _ _ => c.layers.contains id
  | .layerSetSourceRectangle id _ _ _ _ => c.layers.contains id
  | .layerSetOpacity id _ => c.layers.contains id
  | .layerSetVisibility id _ => c.layers.contains id
  | .layerRemoveNotification id => c.layers.contains id
  | .layerSetRenderOrder id surfaces =>
    c.layers.contains id && surfaces.all fun s => c.surfaces.contains s
  | .layerRemove id => c.layers.contains id
  | .layerRemoveSurface layerId surfaceId =>
    c.layers.contains layerId && c.surfaces.contains surfaceId
  | .displaySetRenderOrder id layers =>
    c.screens.contains id && layers.all fun l => c.layers.contains l
  | .surfaceSetDestinationRectangle id _ _ _ _ => c.surfaces.contains id
  | .surfaceSetSourceRectangle id _ _ _ _ => c.surfaces.contains id
  | .surfaceSetOpacity id _ => c.surfaces.contains id
  | .surfaceSetVisibility id _ => c.surfaces.contains id
  | .surfaceRemoveNotification id => c.surfaces.contains id
  | .surfaceAddNotification id => c.surfaces.contains id
  | .getPropertiesOfSurface id => c.surfaces.contains id
  | .registerNotification => true
  | .commitChanges => true

/-- The effect of a call. -/
def apply (c : Compositor) : IlmCall → Compositor
  | .layerCreateWithDimension id _ _ => { c with
      layers := id :: c.layers
      layerOrder := setAt c.layerOrder id []
      layerLook := setAt c.layerLook id .unset }
  | .layerSetDestinationRectangle id x y w h => { c with
      layerLook := setAt c.layerLook id { c.layerLook id with destination := some ⟨x, y, w, h⟩ } }
  | .layerSetSourceRectangle id x y w h => { c with
      layerLook := setAt c.layerLook id { c.layerLook id with source := some ⟨x, y, w, h⟩ } }
  | .layerSetOpacity id opacity => { c with
      layerLook := setAt c.layerLook id { c.layerLook id with opacity := some opacity } }
  | .layerSetVisibility id visibility => { c with
      layerLook := setAt c.layerLook id { c.layerLook id with visibility := some visibility } }
  | .layerSetRenderOrder id surfaces => { c with
      layerOrder := setAt c.layerOrder id surfaces }
  | .layerRemove id => { c with
      layers := c.layers.filter (· != id)
      screenOrder := fun s => (c.screenOrder s).filter (· != id)
      layerOrder := setAt c.layerOrder id []
      layerLook := setAt c.layerLook id .unset }
  | .layerRemoveSurface layerId surfaceId => { c with
      layerOrder := setAt c.layerOrder layerId ((c.layerOrder layerId).filter (· != surfaceId)) }
  | .displaySetRenderOrder id layers => { c with
      screenOrder := fun s =>
        if s = id then layers else (c.screenOrder s).filter fun l => !layers.contains l }
  | .surfaceSetDestinationRectangle id x y w h => { c with
      surfaceLook := setAt c.surfaceLook id
        { c.surfaceLook id with destination := some ⟨x, y, w, h⟩ } }
  | .surfaceSetSourceRectangle id x y w h => { c with
      surfaceLook := setAt c.surfaceLook id { c.surfaceLook id with source := some ⟨x, y, w, h⟩ } }
  | .surfaceSetOpacity id opacity => { c with
      surfaceLook := setAt c.surfaceLook id { c.surfaceLook id with opacity := some opacity } }
  | .surfaceSetVisibility id visibility => { c with
      surfaceLook := setAt c.surfaceLook id
        { c.surfaceLook id with visibility := some visibility } }
  | .surfaceRemoveNotification id => { c with pending := c.pending.filter (· != id) }
  | .surfaceAddNotification id => { c with pending := id :: c.pending }
  | .layerRemoveNotification _ => c
  | .getPropertiesOfSurface _ => c
  | .registerNotification => c
  | .commitChanges => c

/-- The compositor as an ilm library. -/
def ilm (strict : Bool) : Ilm Compositor where
  call op c := if !strict || c.names op then (true, c.apply op) else (false, c)
  getSurfaceIDs c := (c.surfaces, c)
  getLayerIDs c := (c.layers, c)
  getPropertiesOfScreen id c := (c.screens.contains id, c)
  getScreenIDs c := (some c.screens.dedup, c)

/-! ## Applications -/

/-- An application creates a surface. -/
def createSurface (c : Compositor) (id : Id) : Compositor := { c with
  surfaces := id :: c.surfaces
  surfaceLook := setAt c.surfaceLook id .unset }

/-- An application destroys a surface, and its registration goes with it. -/
def destroySurface (c : Compositor) (id : Id) : Compositor := { c with
  surfaces := c.surfaces.filter (· != id)
  layerOrder := fun l => (c.layerOrder l).filter (· != id)
  surfaceLook := setAt c.surfaceLook id .unset
  pending := c.pending.filter (· != id) }

/-- Creations and destructions of surfaces, in any number. -/
inductive SurfacesChange : Compositor → Compositor → Prop
  | none (c : Compositor) : SurfacesChange c c
  | create {c c' : Compositor} (id : Id) :
    SurfacesChange c c' → id ∉ c'.surfaces → SurfacesChange c (c'.createSurface id)
  | destroy {c c' : Compositor} (id : Id) :
    SurfacesChange c c' → SurfacesChange c (c'.destroySurface id)

end Compositor

/-- The world before `parser_init`, with locals that hold zeros and a compositor
that has these screens and nothing else. -/
def World.fresh (screens : List Id) : World Compositor :=
  ⟨⟨[], [], fun _ => .zero⟩, .empty screens⟩

end UhmiIviWm
