import StablePlan.Text.Decimal
import StablePlan.Text.Quoted

/-!
Symbols: the ground terms that label atoms. A symbol is a number, a quoted text, or a function
with arguments; a function without a name is a tuple. A name that ends in primes marks the copy
of a fluent in the step before.
-/

namespace StablePlan

inductive Symbol where
  | number (value : Int)
  | string (value : String)
  | function (name : String) (arguments : List Symbol)
  deriving Inhabited

namespace Symbol

def constant (name : String) : Symbol := .function name []

def name? : Symbol → Option String
  | .function name _ => some name
  | _ => none

def arguments : Symbol → List Symbol
  | .function _ arguments => arguments
  | _ => []

mutual

def decEq : (s t : Symbol) → Decidable (s = t)
  | .number a, .number b =>
    if h : a = b then isTrue (h ▸ rfl) else isFalse fun e => h (Symbol.number.inj e)
  | .string a, .string b =>
    if h : a = b then isTrue (h ▸ rfl) else isFalse fun e => h (Symbol.string.inj e)
  | .function f xs, .function g ys =>
    if h : f = g then
      match decEqList xs ys with
      | isTrue h' => isTrue (h ▸ h' ▸ rfl)
      | isFalse h' => isFalse fun e => h' (Symbol.function.inj e).2
    else isFalse fun e => h (Symbol.function.inj e).1
  | .number _, .string _ | .number _, .function _ _ | .string _, .number _
  | .string _, .function _ _ | .function _ _, .number _ | .function _ _, .string _ =>
    isFalse nofun

def decEqList : (xs ys : List Symbol) → Decidable (xs = ys)
  | [], [] => isTrue rfl
  | x :: xs, y :: ys =>
    match decEq x y with
    | isTrue h =>
      match decEqList xs ys with
      | isTrue h' => isTrue (h ▸ h' ▸ rfl)
      | isFalse h' => isFalse fun e => h' (List.cons.inj e).2
    | isFalse h => isFalse fun e => h (List.cons.inj e).1
  | [], _ :: _ | _ :: _, [] => isFalse nofun

end

instance : DecidableEq Symbol := decEq

mutual

/-- Numbers come before texts and texts before functions. Functions go by name and then by their
arguments, from the first on. -/
def order : Symbol → Symbol → Ordering
  | .number a, .number b => compare a b
  | .number _, _ => .lt
  | _, .number _ => .gt
  | .string a, .string b => compare a b
  | .string _, _ => .lt
  | _, .string _ => .gt
  | .function f xs, .function g ys => (compare f g).then (orderList xs ys)

def orderList : List Symbol → List Symbol → Ordering
  | [], [] => .eq
  | [], _ :: _ => .lt
  | _ :: _, [] => .gt
  | x :: xs, y :: ys => (order x y).then (orderList xs ys)

end

instance : Ord Symbol := ⟨order⟩

mutual

/-- The written form. A function without arguments is its bare name. -/
def text : Symbol → List Char
  | .number n => Decimal.integer n
  | .string s => Text.quote s.toList
  | .function name [] => if name = "" then ['(', ')'] else name.toList
  | .function name (x :: xs) => name.toList ++ '(' :: text x ++ tailText xs

/-- The written form of further arguments and the closing bracket. -/
def tailText : List Symbol → List Char
  | [] => [')']
  | x :: xs => ',' :: text x ++ tailText xs

end

instance : ToString Symbol := ⟨fun s => String.ofList s.text⟩

def prime : Char := '\x27'

def isPrimed (s : Symbol) : Bool :=
  match s.name? with
  | some name => name.toList.getLast? = some prime
  | none => false

def primed : Symbol → Symbol
  | .function name arguments => .function (name.push prime) arguments
  | s => s

def withoutPrimes (name : List Char) : List Char := (name.reverse.dropWhile (· == prime)).reverse

def unprimed : Symbol → Symbol
  | .function name arguments => .function (String.ofList (withoutPrimes name.toList)) arguments
  | s => s

/-- Appends the step as the last argument of a named function; other symbols carry no step. -/
def withStep (s : Symbol) (step : Nat) : Symbol :=
  match s with
  | .function name arguments =>
    if name = "" then s else .function name (arguments ++ [.number step])
  | s => s

end Symbol

end StablePlan
