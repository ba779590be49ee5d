import Mathlib

/-!
# Redo logs

A store after a list of writes. Installing a list of writes is idempotent, also after only a part of
them has been made: what the store held at their keys does not matter.
-/

namespace RedoLog

variable {κ ν : Type*} [DecidableEq κ]

/-- The store after the writes, in order. -/
def install (writes : List (κ × ν)) (store : κ → ν) : κ → ν :=
  writes.foldl (fun store write => Function.update store write.1 write.2) store

@[simp]
theorem install_nil (store : κ → ν) : install [] store = store := rfl

theorem install_append (first rest : List (κ × ν)) (store : κ → ν) :
    install (first ++ rest) store = install rest (install first store) :=
  List.foldl_append

@[simp]
theorem install_concat (writes : List (κ × ν)) (key : κ) (value : ν) (store : κ → ν) :
    install (writes ++ [(key, value)]) store =
      Function.update (install writes store) key value := by
  rw [install_append]
  rfl

/-- A key that no write is for keeps its value. -/
theorem install_of_not_mem {writes : List (κ × ν)} {key : κ} {store : κ → ν}
    (absent : key ∉ writes.map Prod.fst) : install writes store key = store key := by
  induction writes generalizing store with
  | nil => rfl
  | cons write writes ih =>
      simp only [List.map_cons, List.mem_cons, not_or] at absent
      have rest : install writes (Function.update store write.1 write.2) key =
          Function.update store write.1 write.2 key := ih absent.2
      exact rest.trans (Function.update_of_ne absent.1 _ _)

end RedoLog
