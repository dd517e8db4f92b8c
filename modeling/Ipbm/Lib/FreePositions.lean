import Mathlib.Data.List.Nodup
import Mathlib.Data.List.Range

/-! Bitmaps. What is left of a bitmap is the list of its clear positions: the first
of them is found first, and setting a bit strikes it out. -/

set_option autoImplicit false

namespace Ipbm.Lib

/-- The clear positions of a bitmap, in order. -/
def freePositions (bits : List Bool) : List Int :=
  ((List.range bits.length).filter fun position => bits[position]? = some false).map Int.ofNat

theorem nodup_freePositions (bits : List Bool) : (freePositions bits).Nodup :=
  (List.nodup_range.filter _).map fun _ _ equal => Int.ofNat.inj equal

theorem freePositions_replicate (count : Nat) :
    freePositions (List.replicate count false) = (List.range count).map Int.ofNat := by
  unfold freePositions
  rw [List.length_replicate, List.filter_eq_self.mpr]
  intro position member
  simp [List.mem_range.mp member]

/-- The first position that is found is the first of the list. -/
theorem head?_freePositions (bits : List Bool) :
    (freePositions bits).head? = (bits.findIdx? fun bit => !bit).map Int.ofNat := by
  unfold freePositions
  rw [List.head?_map, List.head?_filter]
  congr 1
  cases found : bits.findIdx? fun bit => !bit with
  | none =>
      rw [List.find?_eq_none]
      intro position member
      have inside := List.mem_range.mp member
      have set := List.findIdx?_eq_none_iff.mp found _ (List.getElem_mem inside)
      simpa [List.getElem?_eq_getElem inside] using set
  | some position =>
      obtain ⟨inside, clear, before⟩ := List.findIdx?_eq_some_iff_getElem.mp found
      rw [List.find?_range_eq_some]
      refine ⟨?_, List.mem_range.mpr inside, fun other low => ?_⟩
      · simpa [List.getElem?_eq_getElem inside] using clear
      · have set := before other low
        simpa [List.getElem?_eq_getElem (Nat.lt_trans low inside)] using set

/-- Setting a bit strikes its position out. -/
theorem freePositions_set {bits : List Bool} {position : Nat} :
    freePositions (bits.set position true) = (freePositions bits).filter (· ≠ (position : Int)) := by
  unfold freePositions
  rw [List.length_set, List.filter_map, List.filter_filter]
  congr 1
  refine List.filter_congr fun other _ => ?_
  rw [List.getElem?_set, Bool.eq_iff_iff]
  by_cases here : position = other
  · subst here
    by_cases inside : position < bits.length <;> simp [inside]
  · have apart : (other : Int) ≠ position := fun same => here (Int.ofNat.inj same).symm
    simp [here, apart]

/-- Setting the first clear bit takes it from the front. -/
theorem freePositions_set_first {bits : List Bool} {position : Nat} {rest : List Int}
    (first : freePositions bits = (position : Int) :: rest) :
    freePositions (bits.set position true) = rest := by
  have nodup := nodup_freePositions bits
  rw [first, List.nodup_cons] at nodup
  rw [freePositions_set, first, List.filter_cons_of_neg (by simp), List.filter_eq_self]
  intro other member
  have apart : other ≠ position := by
    rintro rfl
    exact nodup.1 member
  simpa using apart

end Ipbm.Lib
