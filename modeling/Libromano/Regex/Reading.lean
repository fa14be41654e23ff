/- How a compiled pattern reads a string, told by the tree of the pattern: which part of the
   string is left after each part of the tree, with which flag, and where the machine stops,
   leaves a `+` or goes round in a loop that takes no character. -/

import Libromano.Regex.Code

set_option autoImplicit false
set_option relaxedAutoImplicit false

namespace Libromano.Regex

/-- How the machine comes out of a piece of program. -/
inductive Result
  /-- At its end, with a flag and what is left of the string. -/
  | passes (flag : Bool) (rest : List UInt8)
  /-- With the result of the whole run. -/
  | stops (result : Bool)
  /-- By the exit of a `+`. -/
  | leaves
  /-- Never: a loop comes round with the string and the flag as they were. -/
  | idles
  deriving DecidableEq

namespace Result

def andThen (next : Bool → List UInt8 → Result) : Result → Result
  | passes flag rest => next flag rest
  | result => result

/-- What is read when a piece is followed by a jump back that is taken when the flag
is set. The machine stops at the jump where the string is over. -/
def again (back exit : List UInt8 → Result) : Result → Result
  | passes flag [] => stops flag
  | passes true rest => back rest
  | passes false rest => exit rest
  | result => result

end Result

def Test.holds (c : UInt8) : Test → Bool
  | single b => c = b
  | any => true
  | range first last => decide (first.toInt8 ≤ c.toInt8) && decide (c.toInt8 ≤ last.toInt8)

def Test.run (t : Test) (flag : Bool) : List UInt8 → Result
  | [] => .stops flag
  | c :: rest => if t.holds c then .passes true rest else .passes false (c :: rest)

def skip (flag : Bool) : List UInt8 → Result
  | [] => .stops flag
  | rest => .passes flag rest

def setRun (flag : Bool) : List UInt8 → Result
  | [] => .stops flag
  | rest => .passes true rest

/-- The jump to the end that stands before every part of a row but the first. -/
def failRun (first flag : Bool) : List UInt8 → Result
  | [] => if first then .passes flag [] else .stops flag
  | rest => if first || flag then .passes flag rest else .stops false

/-- The rounds of a loop from one that begins with the flag set. -/
def loop (body : Bool → List UInt8 → Result) (exit : List UInt8 → Result) (rest : List UInt8) :
    Result :=
  (body true rest).again
    (fun rest' => if rest'.length < rest.length then loop body exit rest' else .idles) exit
termination_by rest.length

def Quantifier.run (body : Bool → List UInt8 → Result) (flag : Bool) (rest : List UInt8) :
    Quantifier → Result
  | once => body flag rest
  | zeroOrMore => (body flag rest).again (loop body (.passes true)) (.passes true)
  | oneOrMore => (body flag rest).again (loop body fun _ => .leaves) fun _ => .stops false
  | zeroOrOne => (body flag rest).andThen setRun

namespace Tree

def run (first flag : Bool) (rest : List UInt8) : Tree → Result
  | empty => .passes flag rest
  | test t q tail =>
    ((failRun first flag rest).andThen fun flag rest => q.run t.run flag rest).andThen
      fun flag rest => tail.run false flag rest
  | group body q tail =>
    ((failRun first flag rest).andThen fun flag rest => q.run (fun flag rest =>
      ((skip flag rest).andThen fun flag rest => body.run true flag rest).andThen skip) flag
        rest).andThen fun flag rest => tail.run false flag rest
  | separator _ tail => (failRun first flag rest).andThen fun flag rest => tail.run true flag rest

/-- The whole program, with the two instructions at its end. -/
def result (t : Tree) (string : List UInt8) : Result :=
  (t.run true false string).again (fun _ => .stops true) fun _ => .stops false

end Tree

end Libromano.Regex
