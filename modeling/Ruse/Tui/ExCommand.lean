import Ruse.Persist.Encoding

/-!
# Ex commands with a count

The model of what `apps/tui/src/app/ex_range.rs` needs of a command line after its range: the
command words of `input/ex_cmd.rs`, and `counted`, which turns the count of `:d 3` or `:p 2 l`
into a range and the command into its canonical form.
-/

namespace Ruse.Tui

open Ruse.Persist

inductive ExRangeError where
  | invalidRange
  | markNotSet
  | noPreviousPattern
  | noPreviousSubstitute
  | patternNotFound (pat : List Char)
  | badPattern (message : List Char)
  | positiveCount
  | trailing (text : List Char)
deriving DecidableEq

/-! ## Numbers -/

/-- `i64::MAX`. -/
def i64Max : Int := 2 ^ 63 - 1

/-- `i64::MIN`. -/
def i64Min : Int := -2 ^ 63

/-- `i64::saturating_add`, and `saturating_sub` of what is not negative. -/
def saturate (n : Int) : Int := max i64Min (min i64Max n)

/-- The value of decimal digits, which saturates. -/
def parseNumber (digits : List Char) : Int := min i64Max (Nat.ofDigitChars 10 digits 0)

/-! ## Command words -/

/-- The implemented Vim commands, with the length of their shortest abbreviation. -/
def commands : List (String × Nat) := [
  ("write", 1), ("quit", 1), ("wq", 2), ("xit", 1), ("exit", 3), ("qall", 2), ("update", 2),
  ("saveas", 3), ("wall", 2), ("wqall", 3), ("xall", 2), ("quitall", 5), ("hide", 3),
  ("split", 2), ("vsplit", 2), ("close", 3), ("only", 2), ("terminal", 2), ("registers", 3),
  ("display", 2), ("digraphs", 3), ("marks", 5), ("jumps", 2), ("changes", 7), ("ascii", 2),
  ("nohlsearch", 3), ("checkhealth", 3), ("checktime", 6), ("edit", 1), ("enew", 3), ("ls", 2),
  ("buffers", 7), ("files", 5), ("bnext", 2), ("bNext", 2), ("bprevious", 2), ("bdelete", 2),
  ("buffer", 1), ("lmap", 2), ("lunmap", 2), ("cquit", 2), ("read", 1), ("delete", 1),
  ("yank", 1), ("join", 1), ("move", 1), ("copy", 2), ("t", 1), ("put", 2), ("sort", 3),
  ("set", 2), ("setlocal", 4), ("setglobal", 4), ("options", 2), ("earlier", 2), ("later", 3),
  ("substitute", 1), ("global", 1), ("vglobal", 1), ("normal", 4), ("trust", 3), ("print", 1),
  ("list", 1), ("number", 2), ("z", 1), ("retab", 3), ("startinsert", 4), ("startreplace", 6),
  ("startgreplace", 6), ("stopinsert", 5), ("pwd", 2), ("cd", 2), ("chdir", 3), ("file", 1),
  ("find", 3), ("sfind", 2), ("drop", 2), ("visual", 2), ("fold", 2), ("foldopen", 5),
  ("foldclose", 5), ("folddoopen", 5), ("folddoclosed", 7)]

def ruseCommands : List String := [
  "fmt", "format", "references", "refs", "ref", "codeaction", "codeactions", "diagnostics",
  "diags", "diag", "rename", "rn", "trace", "untrust", "inspect", "config-reload"]

/-- The command `word` abbreviates, among the implemented ones. -/
def lookup (word : List Char) : Option String :=
  (commands.find? fun c => decide (c.2 ≤ word.length) && word.isPrefixOf c.1.toList).map (·.1)

def fullCommandName (word : List Char) : Option String :=
  (ruseCommands.find? fun c => c.toList == word).or (lookup word)

/-- Whether `word` is `:s` with its flags glued on, and spells no other command. -/
def isSubstituteWord (word : List Char) : Bool :=
  word[0]? == some 's' &&
    match word[1]? with
    | some 'c' =>
      word[2]? == none ||
        (word[2]? != some 's' && word[2]? != some 'r' &&
          (word[3]? == none || (word[3]? != some 'i' && word[4]? != some 'p')))
    | some 'g' | some 'I' => true
    | some 'i' => !(word[2]? == some 'm' || word[2]? == some 'l' || word[2]? == some 'g')
    | some 'r' => word[2]? != some 'e'
    | _ => false

/-- `arg` up to the `"` of a comment. -/
def commentFree (arg : List Char) : List Char := arg.takeWhile (· != '"')

/-- Whether `verb` spells `:delete` with a trailing `l` or `p`. -/
def deletePrintFlags (verb : List Char) : Bool :=
  let stem := verb.dropLast
  (verb.getLast? == some 'l' || verb.getLast? == some 'p') && !stem.isEmpty &&
    stem.isPrefixOf "delete".toList && !verb.isPrefixOf "delete".toList

def deleteYankVerbs : List (List Char) :=
  ["d", "de", "del", "dele", "delet", "delete", "y", "ya", "yan", "yank"].map String.toList

def joinVerbs : List (List Char) :=
  ["j", "jo", "joi", "join", "j!", "jo!", "joi!", "join!"].map String.toList

/-! ## Counted commands -/

/-- The command's verb, with its `!`, and what follows. -/
def splitVerb (tail : List Char) : List Char × List Char :=
  match tail with
  | '>' :: _ => (tail.takeWhile (· == '>'), tail.dropWhile (· == '>'))
  | '<' :: _ => (tail.takeWhile (· == '<'), tail.dropWhile (· == '<'))
  | '#' :: rest => (['#'], rest)
  | _ =>
    let word := tail.takeWhile Char.isAlpha
    match tail.dropWhile Char.isAlpha with
    | '!' :: rest => (word ++ ['!'], rest)
    | rest => (word, rest)

/-- Whether `verb` is a print command, which takes flags. -/
def prints (verb : List Char) : Bool :=
  verb == ['#'] || fullCommandName verb == some "print" || fullCommandName verb == some "list" ||
    fullCommandName verb == some "number"

/-- Whether `verb` takes a register, if it takes a count at all. -/
def takesRegister (verb : List Char) : Option Bool :=
  if verb ∈ deleteYankVerbs then some true
  else if deletePrintFlags verb then some true
  else if verb ∈ joinVerbs then some false
  else if verb.head? = some '>' ∨ verb.head? = some '<' ∨ prints verb then some false
  else none

def isRegister (c : Char) : Bool :=
  c.isAlpha || c == '-' || c == '_' || c == '*' || c == '+' || c == '#'

/-- The register an argument begins with, for a command that takes one. -/
def splitRegister (takes : Bool) (a : List Char) : Option Char × List Char :=
  match a with
  | c :: rest => if takes && isRegister c then (some c, rest.dropWhile isWhitespace) else (none, a)
  | [] => (none, [])

/-- The count an argument begins with. -/
def splitCount (a : List Char) : Except ExRangeError (Option Int × List Char) :=
  let digits := a.takeWhile Char.isDigit
  if digits.isEmpty then .ok (none, a)
  else if parseNumber digits = 0 then .error .positiveCount
  else .ok (some (parseNumber digits), (a.dropWhile Char.isDigit).dropWhile isWhitespace)

def isFlag (c : Char) : Bool := c == 'l' || c == 'p' || c == '#' || c == ' ' || c == '\t'

/-- The flags an argument begins with, for a command that prints. -/
def splitFlags (takes : Bool) (a : List Char) : List Char × List Char :=
  if takes then ((a.takeWhile isFlag).rdropWhile isWhitespace, a.dropWhile isFlag) else ([], a)

/-- The canonical form of a counted command. -/
def canonical (verb : List Char) (reg : Option Char) (flags : List Char) : List Char :=
  verb ++ (match reg with | some c => [' ', c] | none => []) ++
    if flags.isEmpty then [] else ' ' :: flags

/-- A counted command: the range its count makes, and its canonical form. -/
def counted (tail : List Char) (line2 nlines : Int) :
    Except ExRangeError (Option (Option (Int × Int) × List Char)) :=
  let (verb, args) := splitVerb tail
  match takesRegister verb with
  | none => .ok none
  | some takes =>
    let a := trim (commentFree args)
    if a.isEmpty then .ok (if args.isEmpty then none else some (none, verb))
    else
      let (reg, a) := splitRegister takes a
      match splitCount a with
      | .error e => .error e
      | .ok (count, a) =>
        let (flags, a) := splitFlags (prints verb) a
        if a.isEmpty then
          let range := count.map fun n => (line2, min (saturate (line2 + (n - 1))) nlines)
          .ok (some (range, canonical verb reg flags))
        else .error (.trailing a)

end Ruse.Tui
