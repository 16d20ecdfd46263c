/-
  TimedNet.Grammar.Context

  Where in a text a reader of declarations stands, in words for whoever wrote the text.
-/
import TimedNet.Token.Kind
import TimedNet.Declaration.Kind

namespace TimedNet

inductive Context where
  /-- In the declaration of the network itself, which comes first. -/
  | header
  /-- Where a declaration may begin. -/
  | start
  | declaration (kind : Kind)
  | attributes
deriving DecidableEq

namespace Context

/-- Where the reader stands. -/
def description : Context → String
  | .header => "in system declaration"
  | .start => "at start of declaration"
  | .declaration k => "in " ++ k.text ++ " declaration"
  | .attributes => "in attribute list"

/-- What is well-formed there. -/
def shape : Context → String
  | .header => "system:NAME\x7battributes\x7d"
  | .start => "one of clock, int, event, process, location, edge, sync"
  | .declaration .clock => "clock:SIZE:NAME\x7battributes\x7d"
  | .declaration .int => "int:SIZE:MIN:MAX:INIT:NAME\x7battributes\x7d"
  | .declaration .event => "event:NAME\x7battributes\x7d"
  | .declaration .process => "process:NAME\x7battributes\x7d"
  | .declaration .location => "location:PROCESS:NAME\x7battributes\x7d"
  | .declaration .edge => "edge:PROCESS:TARGET:SOURCE:EVENT\x7battributes\x7d"
  | .declaration .sync => "sync:PROCESS@EVENT[?]:...\x7battributes\x7d"
  | .attributes => "\x7bkey:value : key:value\x7d"

/-- The hint that goes with a fault in this context. -/
def hint (c : Context) : String := c.description ++ ", expected " ++ c.shape

/-- Without a network there is nothing to declare anything in. -/
def isFatal : Context → Bool
  | .header => true
  | _ => false

/-- Whether reading goes on at a token of a kind after a fault. A fault in the header is the end;
behind any other, the next line is read. -/
def resumesAt (c : Context) (k : TokenKind) : Bool :=
  if c.isFatal then k == .endOfFile else k.endsDeclaration

end Context

end TimedNet
