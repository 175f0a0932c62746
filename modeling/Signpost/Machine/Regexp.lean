import Mathlib.Data.List.Basic

/-! # Backtracking regular expressions

A regular expression takes a cursor in a text to the cursors behind its matches,
the preferred one first. Later parts of an expression backtrack over this list.
-/

namespace Machine

universe u

/-- Anchors look at the text on both sides of the cursor. -/
inductive Regexp (α : Type u)
  | empty
  | letter (isIn : α → Bool)
  | anchor (holds : List α → List α → Bool)
  | backReference (group : ℕ)
  | seq (first second : Regexp α)
  | alt (first second : Regexp α)
  | repeat (least : ℕ) (most : Option ℕ) (greedy : Bool) (body : Regexp α)
  | capture (group : ℕ) (body : Regexp α)
  | look (positive : Bool) (body : Regexp α)
  | atomic (body : Regexp α)

namespace Regexp

variable {α : Type u}

/-- What is before the cursor has its last letter first. -/
structure Cursor (α : Type u) where
  before : List α
  after : List α
  groups : ℕ → Option (List α)

/-! ## Matching -/

/-- The body at least that often. -/
def required (body : Cursor α → List (Cursor α)) : ℕ → Cursor α → List (Cursor α)
  | 0, cursor => [cursor]
  | least + 1, cursor => (body cursor).flatMap (required body least)

/-- The body at most that often, and each time with a letter at least. -/
def optional (body : Cursor α → List (Cursor α)) (greedy : Bool) : ℕ → Cursor α → List (Cursor α)
  | 0, cursor => [cursor]
  | most + 1, cursor =>
      let longer := ((body cursor).filter fun next =>
        next.after.length < cursor.after.length).flatMap (optional body greedy most)
      if greedy then longer ++ [cursor] else cursor :: longer

variable [DecidableEq α]

/-- The cursors behind the matches that begin at a cursor. -/
def run : Regexp α → Cursor α → List (Cursor α)
  | empty, cursor => [cursor]
  | letter isIn, cursor =>
      match cursor.after with
      | [] => []
      | c :: rest =>
          if isIn c then [{ cursor with before := c :: cursor.before, after := rest }] else []
  | anchor holds, cursor => if holds cursor.before cursor.after then [cursor] else []
  | backReference group, cursor =>
      match cursor.groups group with
      | none => []
      | some text =>
          if text.isPrefixOf cursor.after then
            [{ cursor with
              before := text.reverse ++ cursor.before
              after := cursor.after.drop text.length }]
          else []
  | seq first second, cursor => (first.run cursor).flatMap second.run
  | alt first second, cursor => first.run cursor ++ second.run cursor
  | .repeat least most greedy body, cursor =>
      (required body.run least cursor).flatMap fun next =>
        optional body.run greedy (most.elim next.after.length (· - least)) next
  | capture group body, cursor =>
      (body.run cursor).map fun next =>
        let length := cursor.after.length - next.after.length
        { next with
          groups := fun other =>
            if other = group then some (cursor.after.take length) else next.groups other }
  | look positive body, cursor =>
      match body.run cursor with
      | [] => if positive then [] else [cursor]
      | next :: _ => if positive then [{ cursor with groups := next.groups }] else []
  | atomic body, cursor => (body.run cursor).take 1

/-- A search begins at every place of the text. -/
def cursors : List α → List α → List (Cursor α)
  | before, [] => [⟨before, [], fun _ => none⟩]
  | before, c :: rest => ⟨before, c :: rest, fun _ => none⟩ :: cursors (c :: before) rest

def isMatch (r : Regexp α) (text : List α) : Bool :=
  (cursors [] text).any fun cursor => !(r.run cursor).isEmpty

/-- The match goes from the beginning of the text to its end. -/
def isWholeMatch (r : Regexp α) (text : List α) : Bool :=
  (r.run ⟨[], text, fun _ => none⟩).any fun cursor => cursor.after.isEmpty

end Regexp

end Machine
