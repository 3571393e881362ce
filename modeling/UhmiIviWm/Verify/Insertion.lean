import UhmiIviWm.Lib.Moves
import UhmiIviWm.Verify.Documents
import UhmiIviWm.Verify.Unique

/-!
# Insertion in batches

An `add_layer` moves one layer after the other to the place the client asked
for, in a list the layers before it have already rearranged; an `add_surface`
does the same with the surfaces of a layer. On the ids this is `moveAll`, whose
closed forms say where a batch ends up (`BatchPlaced`).
-/

namespace UhmiIviWm

open Lib Lib.CallPlan Lib.KeyedList Lib.Moves

/-! ## Places -/

/-- Where `insert_list_element` puts an id. -/
def InsertInfo.put (info : InsertInfo) (target : Id) (l : List Id) : List Id :=
  match info.order with
  | .prepend => target :: l
  | .append => l ++ [target]
  | .before => insertBefore id info.refid target l
  | .after => insertAfter id info.refid target l
  | .none => l

section Places

variable {P C : Type} {info : InsertInfo}

theorem ids_insertListElement (l : List (ListElement P C)) (e : ListElement P C)
    (info : InsertInfo) : ids (insertListElement l e info) = info.put e.id (ids l) := by
  unfold insertListElement InsertInfo.put
  cases info.order with
  | none => rfl
  | prepend => rfl
  | append => exact ids_append l [e]
  | before => exact map_insertBefore (fun e : ListElement P C => e.id) info.refid e l
  | after => exact map_insertAfter (fun e : ListElement P C => e.id) info.refid e l

theorem InsertInfo.puts (h : info.order ≠ .none) : Puts info.put := by
  obtain ⟨order, refid⟩ := info
  cases order with
  | none => exact absurd rfl h
  | prepend => exact puts_front
  | append => exact puts_back
  | before => exact puts_before refid
  | after => exact puts_after refid

end Places

/-! ## Layers -/

section Layers

variable {wm : Wm} {screenId : Id} {info : InsertInfo}

/-- The surfaces of a layer, none where it is not in the tree. -/
def Wm.surfacesOf (wm : Wm) (layerId : Id) : List SurfaceElm :=
  ((getLayer wm.screenHead layerId).map (·.listHead)).getD []

end Layers

/-! ## Surfaces -/

section Surfaces

variable {σ : Type} {ilm : Ilm σ} {layerId : Id} {info : InsertInfo}

theorem ids_reinsert {e : LayerElm} (nd : (ids e.listHead).Nodup) (surfaceId : Id)
    (info : InsertInfo) :
    ids (reinsert surfaceId info e).listHead = move info.put (ids e.listHead) surfaceId := by
  rw [reinsert, ids_insertListElement, ids_eraseP, nd.erase_eq_filter, move]
  refine congrArg _ (List.filter_congr fun x _ => ?_)
  rw [Bool.eq_iff_iff]
  simp

end Surfaces

/-! ## The commands -/

section Commands

variable {msg : Option Json} {screenJobj : Json} {info : InsertInfo}

end Commands

variable {σ : Type} {ilm : Ilm σ}

end UhmiIviWm
