import Mathlib.Data.List.Basic
import Mathlib.Logic.Function.Basic

/-!
# Arrays written in place

A pass that keeps its results in an array of fixed size reads and writes at indices that must be
within the array. Here a read or a write beyond the end has no result, so that a pass has one only
if all of its indices are within bounds.

- `writeAt?`, `changeAt?`: writes or changes an entry, if there is one at the index;
  `foldlM_changeAt?` changes several.
- `tabulate`: the array of the values of a function. Reading and writing it is evaluating and
  updating the function (`getElem?_tabulate`, `writeAt?_tabulate`).
-/

namespace ElementContent

variable {α : Type}

/-- The array with one entry replaced; none if there is no such entry. -/
def writeAt? (xs : Array α) (i : Nat) (x : α) : Option (Array α) :=
  if h : i < xs.size then some (xs.set i x) else none

/-- The array with one entry changed; none if there is no such entry. -/
def changeAt? (f : α → α) (xs : Array α) (i : Nat) : Option (Array α) := do
  let x ← xs[i]?
  writeAt? xs i (f x)

theorem changeAt?_eq {xs : Array α} {i : Nat} (h : i < xs.size) (f : α → α) :
    changeAt? f xs i = some (xs.modify i f) := by
  rw [changeAt?, Array.getElem?_eq_getElem h]
  show writeAt? xs i (f xs[i]) = _
  rw [writeAt?, dif_pos h, Option.some_inj]
  refine Array.ext (by simp) fun j hj hj' => ?_
  rw [Array.getElem_set, Array.getElem_modify]
  by_cases hij : i = j
  · subst hij
    simp
  · simp [hij]

/-- Entries that are all there can be changed one after the other. -/
theorem foldlM_changeAt? {xs : Array α} {l : List Nat} (h : ∀ i ∈ l, i < xs.size) (f : α → α) :
    l.foldlM (changeAt? f) xs = some (l.foldl (fun xs i => xs.modify i f) xs) := by
  induction l generalizing xs with
  | nil => rfl
  | cons i l ih =>
    obtain ⟨hi, hl⟩ := List.forall_mem_cons.1 h
    rw [List.foldlM_cons, changeAt?_eq hi, List.foldl_cons]
    exact ih fun j hj => by rw [Array.size_modify]; exact hl j hj

section MapM

variable {β : Type} {f : α → Option β} {g : α → β} {l : List α}

/-- A list of values is there if each of them is. -/
theorem mapM_eq_some_filterMap (h : ∀ x ∈ l, ∃ y, f x = some y) :
    l.mapM f = some (l.filterMap f) := by
  induction l with
  | nil => rfl
  | cons x l ih =>
    obtain ⟨⟨y, hy⟩, hl⟩ := List.forall_mem_cons.1 h
    rw [List.mapM_cons, hy, ih hl, List.filterMap_cons_some hy]
    rfl

theorem mapM_eq_some_map (h : ∀ x ∈ l, f x = some (g x)) : l.mapM f = some (l.map g) := by
  rw [mapM_eq_some_filterMap fun x hx => ⟨_, h x hx⟩, List.filterMap_congr h]
  exact congrArg some (congrFun List.filterMap_eq_map l)

end MapM

/-- The first values of a function. -/
def tabulate (n : Nat) (f : Nat → α) : Array α :=
  Array.ofFn fun i : Fin n => f i

variable {n i : Nat} {f g : Nat → α}

@[simp] theorem size_tabulate : (tabulate n f).size = n :=
  Array.size_ofFn

theorem getElem?_tabulate (h : i < n) : (tabulate n f)[i]? = some (f i) := by
  simp [tabulate, h]

theorem tabulate_congr (h : ∀ i < n, f i = g i) : tabulate n f = tabulate n g :=
  congrArg Array.ofFn (funext fun i => h i i.isLt)

theorem tabulate_const (n : Nat) (x : α) : tabulate n (fun _ => x) = .replicate n x := by
  refine Array.ext (by simp) fun i hi hi' => ?_
  simp [tabulate]

theorem toArray_map_range (n : Nat) (f : Nat → α) :
    ((List.range n).map f).toArray = tabulate n f := by
  refine Array.ext (by simp) fun i hi hi' => ?_
  simp [tabulate]

/-- Writing an entry is updating the function. -/
theorem writeAt?_tabulate (h : i < n) (x : α) :
    writeAt? (tabulate n f) i x = some (tabulate n (Function.update f i x)) := by
  rw [writeAt?, dif_pos (by rwa [size_tabulate]), Option.some_inj]
  refine Array.ext (by simp) fun j hj hj' => ?_
  rw [Array.getElem_set]
  by_cases hij : i = j
  · subst hij
    simp [tabulate]
  · simp [tabulate, hij, Function.update_of_ne (Ne.symm hij)]

end ElementContent
