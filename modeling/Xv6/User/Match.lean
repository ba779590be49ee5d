import Xv6.Lib.Bytes
import Xv6.Lib.Matching

/-!
# The matcher of grep

`match`, `matchhere` and `matchstar` of `grep.c`. A string is the list of the bytes before its NUL.
-/

namespace Xv6.Grep

open Bytes Matching Computability

abbrev Text := List Byte

/-- `'^'` -/
def caret : Byte := 94

/-- `'$'` -/
def dollar : Byte := 36

/-- `'*'` -/
def asterisk : Byte := 42

/-- `'.'` -/
def dot : Byte := 46

/-- `matchstar(c, re, ·)`, where `here` is `matchhere(re, ·)` -/
def matchstar (here : Text → Bool) (c : Byte) : Text → Bool
  | [] => here []
  | t :: text => here (t :: text) || ((t == c || c == dot) && matchstar here c text)

/-- The last `if` of `matchhere`, for `c` at `re[0]`, where `here` is `matchhere(re+1, ·)`. -/
def matchone (here : Text → Bool) (c : Byte) : Text → Bool
  | [] => false
  | t :: text => (c == dot || c == t) && here text

def matchhere : Text → Text → Bool
  | [], _ => true
  | [c], text => if c = dollar then text.isEmpty else matchone (matchhere []) c text
  | c :: d :: re, text =>
      if d = asterisk then matchstar (matchhere re) c text
      else matchone (matchhere (d :: re)) c text

/-- The loop of `match`, where `here` is `matchhere(re, ·)`. -/
def matchanywhere (here : Text → Bool) : Text → Bool
  | [] => here []
  | t :: text => here (t :: text) || matchanywhere here text

/-- `match` -/
def matchText : Text → Text → Bool
  | [], text => matchanywhere (matchhere []) text
  | c :: re, text =>
      if c = caret then matchhere re text
      else matchanywhere (matchhere (c :: re)) text

/-! ## What a pattern says -/

/-- `c` or `c*` -/
inductive Item where
  | one (c : Byte)
  | star (c : Byte)
  deriving DecidableEq, Repr

/-- A pattern as it is read: whether it starts with `^`, the items, and whether it ends with `$`. -/
structure Pattern where
  anchored : Bool
  items : List Item
  ends : Bool
  deriving DecidableEq, Repr

/-- The characters that `c` stands for. -/
def Stands (c x : Byte) : Prop := c = dot ∨ c = x

def Item.language : Item → Language Byte
  | .one c => letter (Stands c)
  | .star c => (letter (Stands c))∗

def Pattern.language (pattern : Pattern) : Language Byte :=
  (pattern.items.map Item.language).prod

/-- Some substring is in the language of the items, at the ends where that is asked for. -/
def Pattern.Accepts (pattern : Pattern) (text : Text) : Prop :=
  ∃ before word after, text = before ++ word ++ after ∧ word ∈ pattern.language ∧
    (pattern.anchored → before = []) ∧ (pattern.ends → after = [])

/-- The items, and whether there is a `$` after them. A character before `*` is the star's. -/
def readItems : Text → List Item × Bool
  | [] => ([], false)
  | [c] => if c = dollar then ([], true) else ([.one c], false)
  | c :: d :: re =>
      if d = asterisk then (.star c :: (readItems re).1, (readItems re).2)
      else (.one c :: (readItems (d :: re)).1, (readItems (d :: re)).2)

def readPattern (re : Text) : Pattern :=
  match re with
  | [] => ⟨false, [], false⟩
  | c :: rest =>
      if c = caret then ⟨true, (readItems rest).1, (readItems rest).2⟩
      else ⟨false, (readItems (c :: rest)).1, (readItems (c :: rest)).2⟩

def Item.spelling : Item → Text
  | .one c => [c]
  | .star c => [c, asterisk]

def spellItems (items : List Item) (ends : Bool) : Text :=
  (items.map Item.spelling).flatten ++ if ends then [dollar] else []

def Pattern.spelling (pattern : Pattern) : Text :=
  (if pattern.anchored then [caret] else []) ++ spellItems pattern.items pattern.ends

@[simp]
theorem spellItems_cons (item : Item) (items : List Item) (ends : Bool) :
    spellItems (item :: items) ends = item.spelling ++ spellItems items ends := by
  simp [spellItems]

/-- The items spell the pattern they are read from. -/
theorem spellItems_readItems : ∀ re, spellItems (readItems re).1 (readItems re).2 = re
  | [] => rfl
  | [c] => by
      by_cases last : c = dollar
      · simp [readItems, last, spellItems]
      · simp [readItems, last, spellItems, Item.spelling]
  | c :: d :: re => by
      by_cases starred : d = asterisk
      · have rest := spellItems_readItems re
        simp [readItems, starred, Item.spelling, rest]
      · have rest := spellItems_readItems (d :: re)
        simp [readItems, starred, Item.spelling, rest]

theorem spelling_readPattern (re : Text) : (readPattern re).spelling = re := by
  cases re with
  | nil => rfl
  | cons c rest =>
      have items := spellItems_readItems rest
      have all := spellItems_readItems (c :: rest)
      by_cases anchor : c = caret
      · simp [readPattern, anchor, Pattern.spelling, items]
      · simp [readPattern, anchor, Pattern.spelling, all]

/-- The items can only be read in this way: no `*` follows a character, and a `$` at the end is
none of them. -/
def ProperItems (ends : Bool) : List Item → Prop
  | [] => True
  | .star _ :: items => ProperItems ends items
  | .one c :: items =>
      (spellItems items ends).head? ≠ some asterisk ∧
        (spellItems items ends = [] → c ≠ dollar) ∧ ProperItems ends items

/-- A `^` in front is no item. -/
def Pattern.Proper (pattern : Pattern) : Prop :=
  ProperItems pattern.ends pattern.items ∧
    (pattern.anchored = false → (spellItems pattern.items pattern.ends).head? ≠ some caret)

theorem readItems_spellItems {ends : Bool} {items : List Item} (proper : ProperItems ends items) :
    readItems (spellItems items ends) = (items, ends) := by
  induction items with
  | nil => cases ends <;> rfl
  | cons item items ih =>
      cases item with
      | star c =>
          rw [spellItems_cons]
          simp [Item.spelling, readItems, ih proper]
      | one c =>
          obtain ⟨unstarred, last, proper⟩ := proper
          rw [spellItems_cons]
          rcases spelled : spellItems items ends with _ | ⟨d, re⟩
          · have rest := ih proper
            rw [spelled] at rest
            simp only [readItems, Prod.mk.injEq] at rest
            obtain ⟨rfl, rfl⟩ := rest
            simp [Item.spelling, readItems, last spelled]
          · have rest := ih proper
            rw [spelled] at rest unstarred
            have other : d ≠ asterisk := by simpa using unstarred
            simp [Item.spelling, readItems, other, rest]

theorem properItems_readItems : ∀ re, ProperItems (readItems re).2 (readItems re).1
  | [] => trivial
  | [c] => by
      by_cases last : c = dollar
      · simp [readItems, last, ProperItems]
      · simp [readItems, last, ProperItems, spellItems]
  | c :: d :: re => by
      by_cases starred : d = asterisk
      · simp only [readItems, if_pos starred]
        exact properItems_readItems re
      · have spelled := spellItems_readItems (d :: re)
        simp only [readItems, if_neg starred, ProperItems, spelled]
        exact ⟨by simpa using starred, nofun, properItems_readItems (d :: re)⟩

theorem proper_readPattern (re : Text) : (readPattern re).Proper := by
  cases re with
  | nil => exact ⟨trivial, nofun⟩
  | cons c rest =>
      by_cases anchor : c = caret
      · simp only [readPattern, if_pos anchor]
        exact ⟨properItems_readItems rest, nofun⟩
      · simp only [readPattern, if_neg anchor]
        refine ⟨properItems_readItems (c :: rest), fun _ => ?_⟩
        rw [spellItems_readItems]
        simpa using anchor

/-- A pattern has one reading. -/
theorem readPattern_unique {pattern : Pattern} {re : Text} (proper : pattern.Proper)
    (spelled : pattern.spelling = re) : readPattern re = pattern := by
  obtain ⟨anchored, items, ends⟩ := pattern
  obtain ⟨proper, front⟩ := proper
  have items := readItems_spellItems proper
  subst spelled
  cases anchored with
  | true => simp [Pattern.spelling, readPattern, items]
  | false =>
      have front := front rfl
      rcases spelled : spellItems _ ends with _ | ⟨c, re⟩
      · rw [spelled] at items
        simp only [readItems, Prod.mk.injEq] at items
        obtain ⟨rfl, rfl⟩ := items
        simp [Pattern.spelling, readPattern, spelled]
      · rw [spelled] at front items
        have other : c ≠ caret := by simpa using front
        simp [Pattern.spelling, readPattern, spelled, other, items]

/-! ## The functions and the languages -/

theorem matchstar_iff {here : Text → Bool} {c : Byte} (text : Text) :
    matchstar here c text = true ↔
      Takes (Item.star c).language (fun left => here left = true) text := by
  induction text with
  | nil => rw [matchstar, Item.language, takes_kstar_nil]
  | cons t text ih =>
      have stands : (t == c || c == dot) = true ↔ Stands c t := by
        simp only [Bool.or_eq_true, beq_iff_eq, Stands]
        rw [or_comm, eq_comm (a := t)]
      rw [matchstar, Bool.or_eq_true, Bool.and_eq_true, stands, ih, Item.language, takes_kstar_cons]

theorem matchone_iff {here : Text → Bool} {c : Byte} (text : Text) :
    matchone here c text = true ↔
      Takes (Item.one c).language (fun left => here left = true) text := by
  cases text with
  | nil => simp [matchone, Item.language, takes_letter_nil]
  | cons t text => simp [matchone, Item.language, takes_letter_cons, Stands]

theorem matchanywhere_iff {here : Text → Bool} (text : Text) :
    matchanywhere here text = true ↔ Takes ⊤ (fun left => here left = true) text := by
  rw [← kstar_letter_any]
  induction text with
  | nil => rw [matchanywhere, takes_kstar_nil]
  | cons t text ih =>
      rw [matchanywhere, Bool.or_eq_true, takes_kstar_cons, ih, true_and]

/-- What is left when the items have been taken. -/
def Finishes (ends : Bool) (left : Text) : Prop := ends → left = []

theorem finishes_false : Finishes false = fun _ => True := by
  funext left
  simp [Finishes]

theorem matchhere_iff : ∀ re text, matchhere re text = true ↔
    Takes (((readItems re).1.map Item.language).prod) (Finishes (readItems re).2) text
  | [], text => by
      simp [matchhere, readItems, takes_one, Finishes]
  | [c], text => by
      by_cases last : c = dollar
      · simp [matchhere, readItems, last, takes_one, Finishes]
      · simp [matchhere, readItems, last, matchone_iff, finishes_false]
  | c :: d :: re, text => by
      by_cases starred : d = asterisk
      · have rest := matchhere_iff re
        simp [matchhere, readItems, starred, matchstar_iff, rest, takes_mul]
      · have rest := matchhere_iff (d :: re)
        simp [matchhere, readItems, starred, matchone_iff, rest, takes_mul]

theorem Pattern.accepts_iff {pattern : Pattern} {text : Text} :
    pattern.Accepts text ↔
      Takes (if pattern.anchored then 1 else ⊤)
        (Takes pattern.language (Finishes pattern.ends)) text := by
  rw [takes_takes_iff]
  refine exists_congr fun before => exists_congr fun word => exists_congr fun after => ?_
  have front : before ∈ (if pattern.anchored then 1 else ⊤ : Language Byte) ↔
      (pattern.anchored → before = []) := by
    cases pattern.anchored with
    | true => simp [Language.mem_one]
    | false => exact iff_of_true trivial nofun
  rw [front, Finishes]
  tauto

theorem matchanywhere_matchhere_iff (re text : Text) :
    matchanywhere (matchhere re) text = true ↔
      Takes ⊤ (Takes (((readItems re).1.map Item.language).prod) (Finishes (readItems re).2)) text := by
  have here : (fun left => matchhere re left = true) =
      Takes (((readItems re).1.map Item.language).prod) (Finishes (readItems re).2) :=
    funext fun left => propext (matchhere_iff re left)
  rw [matchanywhere_iff, here]

/-- The matcher finds exactly what the pattern says. -/
theorem matchText_iff (re text : Text) :
    matchText re text = true ↔ (readPattern re).Accepts text := by
  rw [Pattern.accepts_iff]
  cases re with
  | nil => exact matchanywhere_matchhere_iff [] text
  | cons c rest =>
      by_cases anchor : c = caret
      · simp only [matchText, readPattern, if_pos anchor, if_true, takes_one]
        exact matchhere_iff rest text
      · simp only [matchText, readPattern, if_neg anchor]
        exact matchanywhere_matchhere_iff (c :: rest) text

example : matchText [caret, 97, asterisk, 98, dollar] [97, 97, 98] = true := by decide

end Xv6.Grep
