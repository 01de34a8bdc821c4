import Offside.Script.Basic

/-!
# Helper functions

Some constructs are lowered to calls of four fixed functions.  The ones that a program needs are put in front of
its script, once each and in a fixed order.
-/

namespace Offside.Script

/-- The helper functions: element or key test, elements of anything that can be looped over, ranges of numbers,
and structural equality. -/
inductive Helper
  | membership | iterable | range | deepEquals
deriving DecidableEq, Repr

namespace Helper

/-- The name a helper is called by. -/
def name : Helper → String
  | .membership => "$_in"
  | .iterable => "$_createIterable"
  | .range => "range"
  | .deepEquals => "$_deepEquals"

/-- The lines that declare a helper. -/
def lines : Helper → List String
  | .membership => [
   "function $_in(val, obj) \x7b",
   "    if (obj instanceof Array || typeof obj === \"string\") \x7b",
   "        return obj.indexOf(val) !== -1;",
   "    \x7d",
   "    return val in obj;",
   "\x7d"]
  | .iterable => [
   "function $_createIterable(object) \x7b",
   "    if (object.constructor === [].constructor || object.constructor === \"\".constructor) \x7b",
   "        return object;",
   "    \x7d else if (typeof Set !== \"undefined\" && object.constructor === Set) \x7b",
   "        return Array.from(object);",
   "    \x7d",
   "    return Object.keys(object);",
   "\x7d"]
  | .range => [
   "function range(start, end = 0, step = 1) \x7b",
   "    if (arguments.length === 1) \x7b",
   "        end = start;",
   "        start = 0;",
   "    \x7d",
   "    let arr = [];",
   "    for (; (end - start) * step > 0; start += step) arr.push(start);",
   "    return arr;",
   "\x7d"]
  | .deepEquals => [
   "function $_deepEquals(a, b) \x7b",
   "    if (a === b) return true;",
   "    if (a === null || b === null || typeof a !== \"object\" || typeof b !== \"object\") return false;",
   "    if (Object.getPrototypeOf(a) !== Object.getPrototypeOf(b)) return false;",
   "    if (Array.isArray(a)) \x7b",
   "        if (a.length !== b.length) return false;",
   "        for (let i = 0; i < a.length; i++) \x7b",
   "            if (!$_deepEquals(a[i], b[i])) return false;",
   "        \x7d",
   "        return true;",
   "    \x7d",
   "    const keys = Object.keys(a);",
   "    if (keys.length !== Object.keys(b).length) return false;",
   "    return keys.every(function (key) \x7b",
   "        return Object.prototype.hasOwnProperty.call(b, key) && $_deepEquals(a[key], b[key]);",
   "    \x7d);",
   "\x7d"]

/-- The declaration of a helper. -/
def text (helper : Helper) : String := String.join (helper.lines.map (· ++ "\n"))

/-- All helpers, in the order of their declarations. -/
def all : List Helper := [.membership, .iterable, .range, .deepEquals]

end Helper

/-- A set of helpers. -/
structure Needs where
  membership : Bool
  iterable : Bool
  range : Bool
  deepEquals : Bool
deriving DecidableEq, Repr

namespace Needs

def none : Needs := ⟨false, false, false, false⟩

/-- The set of one helper. -/
def only : Helper → Needs
  | .membership => { none with membership := true }
  | .iterable => { none with iterable := true }
  | .range => { none with range := true }
  | .deepEquals => { none with deepEquals := true }

/-- The helper alone if `needed`, else nothing. -/
def when (needed : Bool) (helper : Helper) : Needs := if needed then only helper else none

def union (a b : Needs) : Needs :=
  ⟨a.membership || b.membership, a.iterable || b.iterable, a.range || b.range,
    a.deepEquals || b.deepEquals⟩

instance : Append Needs := ⟨union⟩

def contains (needs : Needs) : Helper → Bool
  | .membership => needs.membership
  | .iterable => needs.iterable
  | .range => needs.range
  | .deepEquals => needs.deepEquals

/-- The declarations of the helpers in a set. -/
def text (needs : Needs) : String :=
  String.join ((Helper.all.filter needs.contains).map Helper.text)

end Needs

end Offside.Script
