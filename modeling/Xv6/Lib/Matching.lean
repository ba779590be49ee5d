import Mathlib

/-!
# Matching from the front

A matcher takes a word of a language from the front of a text and hands what is left to the rest of
the matcher. These are the rules by which it goes on one letter at a time.
-/

namespace Matching

open Computability

variable {Letter : Type*}

/-- A word of the language is taken from the front, and the rest succeeds on what is left. -/
def Takes (language : Language Letter) (rest : List Letter → Prop) (text : List Letter) : Prop :=
  ∃ taken left, text = taken ++ left ∧ taken ∈ language ∧ rest left

/-- The words of one letter of some kind. -/
def letter (kind : Letter → Prop) : Language Letter := {word | ∃ x, word = [x] ∧ kind x}

variable {language language' : Language Letter} {rest : List Letter → Prop}
  {kind : Letter → Prop} {x : Letter} {text word : List Letter}

theorem mem_letter : word ∈ letter kind ↔ ∃ x, word = [x] ∧ kind x := Iff.rfl

/-- The words of any number of such letters. -/
theorem mem_kstar_letter : word ∈ (letter kind)∗ ↔ ∀ x ∈ word, kind x := by
  constructor
  · rw [Language.mem_kstar]
    rintro ⟨words, rfl, all⟩ x inside
    obtain ⟨one, among, here⟩ := List.mem_flatten.mp inside
    obtain ⟨y, rfl, good⟩ := mem_letter.mp (all one among)
    rw [List.mem_singleton.mp here]
    exact good
  · intro all
    have letters : word = (word.map fun x => [x]).flatten := by
      induction word with
      | nil => rfl
      | cons x word ih =>
          have short := ih fun y inside => all y (List.mem_cons_of_mem x inside)
          simpa using short
    rw [letters]
    apply Language.join_mem_kstar
    intro one among
    obtain ⟨x, inside, rfl⟩ := List.mem_map.mp among
    exact mem_letter.mpr ⟨x, rfl, all x inside⟩

theorem takes_one : Takes 1 rest text ↔ rest text := by
  constructor
  · rintro ⟨taken, left, rfl, empty, success⟩
    rw [(Language.mem_one taken).mp empty]
    exact success
  · intro success
    exact ⟨[], text, rfl, Language.nil_mem_one, success⟩

theorem takes_mul :
    Takes (language * language') rest text ↔ Takes language (Takes language' rest) text := by
  constructor
  · rintro ⟨taken, left, rfl, both, success⟩
    obtain ⟨first, inFirst, second, inSecond, rfl⟩ := Language.mem_mul.mp both
    refine ⟨first, second ++ left, List.append_assoc first second left, inFirst, ?_⟩
    exact ⟨second, left, rfl, inSecond, success⟩
  · rintro ⟨first, middle, rfl, inFirst, second, left, rfl, inSecond, success⟩
    refine ⟨first ++ second, left, (List.append_assoc first second left).symm, ?_, success⟩
    exact Language.append_mem_mul inFirst inSecond

theorem takes_letter_nil : ¬ Takes (letter kind) rest [] := by
  rintro ⟨taken, left, empty, ⟨x, rfl, _⟩, _⟩
  simp at empty

theorem takes_letter_cons : Takes (letter kind) rest (x :: text) ↔ kind x ∧ rest text := by
  constructor
  · rintro ⟨taken, left, same, ⟨y, rfl, good⟩, success⟩
    obtain ⟨rfl, rfl⟩ := List.cons.inj same
    exact ⟨good, success⟩
  · rintro ⟨good, success⟩
    exact ⟨[x], text, rfl, mem_letter.mpr ⟨x, rfl, good⟩, success⟩

theorem takes_kstar_nil : Takes (letter kind)∗ rest [] ↔ rest [] := by
  constructor
  · rintro ⟨taken, left, empty, _, success⟩
    rwa [(List.append_eq_nil_iff.mp empty.symm).2] at success
  · intro success
    exact ⟨[], [], rfl, Language.nil_mem_kstar _, success⟩

/-- Either no letter is taken, or one is and then more of them. -/
theorem takes_kstar_cons : Takes (letter kind)∗ rest (x :: text) ↔
    rest (x :: text) ∨ kind x ∧ Takes (letter kind)∗ rest text := by
  constructor
  · rintro ⟨_ | ⟨y, taken⟩, left, same, all, success⟩
    · left
      rwa [same]
    · right
      obtain ⟨rfl, rfl⟩ := List.cons.inj same
      have good := mem_kstar_letter.mp all
      refine ⟨good x List.mem_cons_self, taken, left, rfl, ?_, success⟩
      exact mem_kstar_letter.mpr fun y inside => good y (List.mem_cons_of_mem x inside)
  · rintro (success | ⟨good, taken, left, rfl, all, success⟩)
    · exact ⟨[], x :: text, rfl, Language.nil_mem_kstar _, success⟩
    · refine ⟨x :: taken, left, rfl, ?_, success⟩
      rw [mem_kstar_letter] at all ⊢
      exact List.forall_mem_cons.mpr ⟨good, all⟩

theorem kstar_letter_any : (letter fun _ : Letter => True)∗ = ⊤ := by
  ext word
  exact iff_of_true (mem_kstar_letter.mpr fun _ _ => trivial) trivial

/-- A word taken from the front of what is left by a first word. -/
theorem takes_takes_iff {first second : Language Letter} :
    Takes first (Takes second rest) text ↔
      ∃ before word after, text = before ++ word ++ after ∧ before ∈ first ∧ word ∈ second ∧
        rest after := by
  constructor
  · rintro ⟨before, left, rfl, inFirst, word, after, rfl, inSecond, success⟩
    refine ⟨before, word, after, ?_, inFirst, inSecond, success⟩
    exact (List.append_assoc before word after).symm
  · rintro ⟨before, word, after, rfl, inFirst, inSecond, success⟩
    refine ⟨before, word ++ after, List.append_assoc before word after, inFirst, ?_⟩
    exact ⟨word, after, rfl, inSecond, success⟩

end Matching
