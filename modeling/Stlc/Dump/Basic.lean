/-!
# Dumps

A dump shows a value as a tree of labelled parts. It is written on one line, or with every part on
a line of its own, indented by four columns a level and followed by a comma.
-/

namespace Stlc

inductive Bracket where
  | braces
  | parens
  | square
deriving DecidableEq

namespace Bracket

def opening : Bracket → String
  | braces => " \x7b"
  | parens => "("
  | square => "["

def closing : Bracket → String
  | braces => "\x7d"
  | parens => ")"
  | square => "]"

/-- What stands between a bracket and the parts, where all is on one line. -/
def padding : Bracket → String
  | braces => " "
  | _ => ""

end Bracket

inductive Dump where
  /-- Something without parts. -/
  | leaf (text : String)
  /-- A part that has a name. -/
  | field (name : String) (value : Dump)
  /-- Parts in brackets, after a label. -/
  | group (label : String) (bracket : Bracket) (parts : List Dump)

namespace Dump

def record (label : String) (fields : List Dump) : Dump := group label .braces fields

def tuple (label : String) (parts : List Dump) : Dump := group label .parens parts

def list (entries : List Dump) : Dump := group "" .square entries

mutual

def compact : Dump → String
  | leaf text => text
  | field name value => name ++ ": " ++ value.compact
  | group label b parts =>
    label ++ b.opening ++ b.padding ++ compactParts parts ++ b.padding ++ b.closing

def compactParts : List Dump → String
  | [] => ""
  | [d] => d.compact
  | d :: ds => d.compact ++ ", " ++ compactParts ds

end

mutual

/-- A dump over several lines, of which all but the first begin with `margin`. -/
def pretty (margin : String) : Dump → String
  | leaf text => text
  | field name value => name ++ ": " ++ value.pretty margin
  | group label b parts =>
    if parts.isEmpty then label ++ b.opening ++ b.closing
    else label ++ b.opening ++ "\n" ++ prettyParts margin parts ++ margin ++ b.closing

def prettyParts (margin : String) : List Dump → String
  | [] => ""
  | d :: ds => margin ++ "    " ++ d.pretty (margin ++ "    ") ++ ",\n" ++ prettyParts margin ds

end

end Dump

end Stlc
