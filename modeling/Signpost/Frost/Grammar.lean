import Signpost.Frost.Parser

/-! # The grammar of the JSON parser

What the parser takes for a value, apart from how it reads it. The dialect is the
parser's own: a number may end in a point, and a document that is a number ends
with white space.
-/

namespace Signpost.Frost

variable {φ : Type}

/-! ## White space, numbers and strings -/

def Spaces (text : Text) : Prop := ∀ c ∈ text, isSpace c

theorem spaces_nil : Spaces [] := by simp [Spaces]

theorem Spaces.concat {text : Text} {c : Char} (htext : Spaces text) (hc : isSpace c) :
    Spaces (text ++ [c]) := by
  intro d hd
  rcases List.mem_append.mp hd with hold | hnew
  · exact htext d hold
  · rw [List.mem_singleton.mp hnew]
    exact hc

theorem spaces_cons {c : Char} {text : Text} : Spaces (c :: text) ↔ isSpace c ∧ Spaces text := by
  simp [Spaces]

/-- The beginning of a number: a digit or a sign, and digits. -/
def SignedDigits (is : Text) : Prop :=
  ∃ c ds, is = c :: ds ∧ (c = '-' ∨ c.isDigit) ∧ ds.all Char.isDigit

theorem SignedDigits.concat {is : Text} {c : Char} (his : SignedDigits is) (hc : c.isDigit) :
    SignedDigits (is ++ [c]) := by
  obtain ⟨first, ds, rfl, hfirst, hds⟩ := his
  exact ⟨first, ds ++ [c], rfl, hfirst, by simp [hds, hc]⟩

/-- A zero in front of other digits is refused, unless a sign hides it. -/
structure IntPart (is : Text) : Prop where
  digits : SignedDigits is
  noLeadingZero : ∀ c tl, is ≠ '0' :: c :: tl

inductive Number (floats : Floats φ) : Text → Json φ → Prop
  | int {is : Text} {i : Int64} (his : IntPart is) (hvalue : int64OfString is = some i) :
      Number floats is (.int i)
  | float {is fs : Text} {r : φ} (his : IntPart is) (hfs : fs.all Char.isDigit)
      (hvalue : floats.ofString (is ++ '.' :: fs) = some r) :
      Number floats (is ++ '.' :: fs) (.float r)
  | intExp {is es : Text} {e : Char} {r : φ} (his : IntPart is) (he : isExponent e)
      (hes : es.all isExponentChar)
      (hvalue : floats.ofString (is ++ '.' :: 'e' :: es) = some r) :
      Number floats (is ++ e :: es) (.float r)
  | floatExp {is fs es : Text} {e : Char} {r : φ} (his : IntPart is) (hfs : fs.all Char.isDigit)
      (he : isExponent e) (hes : es.all isExponentChar)
      (hvalue : floats.ofString (is ++ '.' :: (fs ++ 'e' :: es)) = some r) :
      Number floats (is ++ '.' :: (fs ++ e :: es)) (.float r)

def Json.IsNumber : Json φ → Prop
  | .int _ | .float _ => True
  | _ => False

theorem Number.isNumber {floats : Floats φ} {text : Text} {v : Json φ}
    (hnumber : Number floats text v) : v.IsNumber := by
  cases hnumber <;> trivial

/-- The character that is meant by one after a backslash. -/
def unescape (e : Char) : Option Char :=
  if e = '"' ∨ e = '\\' ∨ e = '/' then some e
  else if e = 'b' then some '\x08'
  else if e = 'f' then some '\x0c'
  else if e = 'n' then some '\n'
  else if e = 'r' then some '\r'
  else if e = 't' then some '\t'
  else none

/-- What stands between quotes, and the string that it means. A unicode escape
means itself. -/
inductive Characters : Text → Text → Prop
  | nil : Characters [] []
  | plain {c : Char} {source s : Text} (hc : isValidUnescapedChar c)
      (hsource : Characters source s) : Characters (c :: source) (c :: s)
  | escaped {e c : Char} {source s : Text} (he : unescape e = some c)
      (hsource : Characters source s) : Characters ('\\' :: e :: source) (c :: s)
  | unicode {hs source s : Text} (hlength : hs.length = 4) (hhex : hs.all isHexChar)
      (hsource : Characters source s) :
      Characters ('\\' :: 'u' :: (hs ++ source)) ('\\' :: 'u' :: (hs ++ s))

theorem Characters.append {source s later t : Text} (hsource : Characters source s)
    (hlater : Characters later t) : Characters (source ++ later) (s ++ t) := by
  induction hsource with
  | nil => exact hlater
  | plain hc _ ih => exact .plain hc ih
  | escaped he _ ih => exact .escaped he ih
  | unicode hlength hhex _ ih =>
      simp only [List.cons_append, List.append_assoc]
      exact .unicode hlength hhex ih

/-! ## Values -/

/-- What a text can be derived for. An element has white space around it. -/
inductive Phrase (φ : Type)
  | value (v : Json φ)
  | element (v : Json φ)
  | elements (l : List (Json φ))
  | field (key : Text) (v : Json φ)
  | fields (l : List (Text × Json φ))

inductive Derives (floats : Floats φ) : Text → Phrase φ → Prop
  | null : Derives floats ['n', 'u', 'l', 'l'] (.value .null)
  | true : Derives floats ['t', 'r', 'u', 'e'] (.value (.bool true))
  | false : Derives floats ['f', 'a', 'l', 's', 'e'] (.value (.bool false))
  | number {text : Text} {v : Json φ} (hnumber : Number floats text v) :
      Derives floats text (.value v)
  | string {source s : Text} (hsource : Characters source s) :
      Derives floats ('"' :: (source ++ ['"'])) (.value (.string s))
  | emptyArray {ws : Text} (hws : Spaces ws) :
      Derives floats ('[' :: (ws ++ [']'])) (.value (.array []))
  | array {text : Text} {l : List (Json φ)} (htext : Derives floats text (.elements l)) :
      Derives floats ('[' :: (text ++ [']'])) (.value (.array l))
  | emptyObject {ws : Text} (hws : Spaces ws) :
      Derives floats ('{' :: (ws ++ ['}'])) (.value (.object []))
  | object {text : Text} {l : List (Text × Json φ)} (htext : Derives floats text (.fields l)) :
      Derives floats ('{' :: (text ++ ['}'])) (.value (.object l))
  | element {before text after : Text} {v : Json φ} (hbefore : Spaces before)
      (htext : Derives floats text (.value v)) (hafter : Spaces after) :
      Derives floats (before ++ (text ++ after)) (.element v)
  | firstElement {text : Text} {v : Json φ} (htext : Derives floats text (.element v)) :
      Derives floats text (.elements [v])
  | nextElement {text next : Text} {l : List (Json φ)} {v : Json φ}
      (htext : Derives floats text (.elements l)) (hnext : Derives floats next (.element v)) :
      Derives floats (text ++ ',' :: next) (.elements (l ++ [v]))
  | field {before source after text : Text} {key : Text} {v : Json φ} (hbefore : Spaces before)
      (hsource : Characters source key) (hafter : Spaces after)
      (htext : Derives floats text (.element v)) :
      Derives floats (before ++ '"' :: (source ++ '"' :: (after ++ ':' :: text))) (.field key v)
  | firstField {text : Text} {key : Text} {v : Json φ}
      (htext : Derives floats text (.field key v)) : Derives floats text (.fields [(key, v)])
  | nextField {text next : Text} {l : List (Text × Json φ)} {key : Text} {v : Json φ}
      (htext : Derives floats text (.fields l)) (hnext : Derives floats next (.field key v)) :
      Derives floats (text ++ ',' :: next) (.fields (l ++ [(key, v)]))

/-- What is read of a text before the parser has its value. -/
inductive Document (floats : Floats φ) : Text → Json φ → Prop
  | value {before text : Text} {v : Json φ} (hbefore : Spaces before)
      (htext : Derives floats text (.value v)) (hv : ¬ v.IsNumber) :
      Document floats (before ++ text) v
  | number {before text : Text} {c : Char} {v : Json φ} (hbefore : Spaces before)
      (hnumber : Number floats text v) (hc : isSpace c) :
      Document floats (before ++ (text ++ [c])) v

section

variable {floats : Floats φ} {text : Text} {c : Char}

theorem Derives.elements_ne_nil {l : List (Json φ)} (htext : Derives floats text (.elements l)) :
    l ≠ [] := by
  cases htext with
  | firstElement => exact List.cons_ne_nil _ _
  | nextElement => exact List.append_ne_nil_of_right_ne_nil _ (List.cons_ne_nil _ _)

/-! ## White space at the end -/

theorem Derives.element_space {v : Json φ} (htext : Derives floats text (.element v))
    (hc : isSpace c) : Derives floats (text ++ [c]) (.element v) := by
  cases htext with
  | element hbefore hvalue hafter =>
      rw [List.append_assoc, List.append_assoc]
      exact .element hbefore hvalue (hafter.concat hc)

theorem Derives.elements_space {l : List (Json φ)} (htext : Derives floats text (.elements l))
    (hc : isSpace c) : Derives floats (text ++ [c]) (.elements l) := by
  cases htext with
  | firstElement hfirst => exact .firstElement (hfirst.element_space hc)
  | nextElement hbefore hnext =>
      rw [List.append_assoc, List.cons_append]
      exact .nextElement hbefore (hnext.element_space hc)

theorem Derives.field_space {key : Text} {v : Json φ} (htext : Derives floats text (.field key v))
    (hc : isSpace c) : Derives floats (text ++ [c]) (.field key v) := by
  cases htext with
  | field hbefore hsource hafter hvalue =>
      simp only [List.append_assoc, List.cons_append]
      exact .field hbefore hsource hafter (hvalue.element_space hc)

theorem Derives.fields_space {l : List (Text × Json φ)} (htext : Derives floats text (.fields l))
    (hc : isSpace c) : Derives floats (text ++ [c]) (.fields l) := by
  cases htext with
  | firstField hfirst => exact .firstField (hfirst.field_space hc)
  | nextField hbefore hnext =>
      rw [List.append_assoc, List.cons_append]
      exact .nextField hbefore (hnext.field_space hc)

end

end Signpost.Frost
