import CssOutline.Decode
import CssOutline.Text.Quoted

/-!
What happens while a style sheet is decoded: first the bodies kept as text while reading, then a
report on each rule and on everything that was replaced or left out, each rule before its body.
-/

namespace CssOutline

inductive Event where
  | keptBody (name : String)
  | styleRule (key : String) (start : Location)
  | atRule (key : String) (start : Location)
  | skipped (start : Location) (reason source : String)
  | replacedKey (name : String) (start : Location) (error : RenderError)
  | replacedValue (property : String) (error : RenderError)
  | decoded (rules keys : Nat)

namespace Event

/-- The level and the message. -/
def line : Event → String
  | keptBody name => "DEBUG Keeping the body of unknown at-rule '@" ++ name ++ "' as text"
  | styleRule key start => "TRACE Style rule '" ++ key ++ "' at " ++ start.text
  | atRule key start => "TRACE At-rule '" ++ key ++ "' at " ++ start.text
  | skipped start reason source =>
    "WARN Skipping unrecognized CSS at " ++ start.text ++ ": " ++ reason ++ " (" ++
      Text.quoted source ++ ")"
  | replacedKey name start error =>
    "WARN At-rule '@" ++ name ++ "' at " ++ start.text ++ ": " ++ error.message
  | replacedValue property error =>
    "WARN Cannot render the value of '" ++ property ++ "': " ++ error.message
  | decoded rules keys =>
    "DEBUG Decoded " ++ Number.digitsText rules ++ " top-level rules into " ++
      Number.digitsText keys ++ " keys"

end Event

mutual

/-- The bodies kept as text within a rule, in source order. -/
def Rule.readEvents : Rule → List Event
  | .style _ _ body => readEventsOf body
  | .atRule _ name _ body => body.readEvents name
  | .unrecognized _ _ _ => []

def AtBody.readEvents (name : String) : AtBody → List Event
  | .none => []
  | .members list => readEventsOf list
  | .verbatim _ => [.keptBody name]

def Member.readEvents : Member → List Event
  | .declaration _ => []
  | .rule rule => rule.readEvents

def readEventsOf : List Member → List Event
  | [] => []
  | m :: ms => m.readEvents ++ readEventsOf ms

end

def Declaration.events (d : Declaration) : List Event :=
  match d.value.render with
  | .ok _ => []
  | .error e => [.replacedValue d.property.text e]

def keyEvents (start : Location) (name : String) (clause : Prelude) : List Event :=
  match atRuleKey name clause with
  | .ok _ => [.atRule (atKey name clause) start]
  | .error e => [.replacedKey name start e, .atRule (atKey name clause) start]

mutual

def Rule.events : Rule → List Event
  | .style start head body => .styleRule head.render start :: eventsOf body
  | .atRule start name clause body => keyEvents start name clause ++ body.events
  | .unrecognized start reason source => [.skipped start reason source]

def AtBody.events : AtBody → List Event
  | .none => []
  | .members list => eventsOf list
  | .verbatim _ => []

def Member.events : Member → List Event
  | .declaration d => d.events
  | .rule rule => rule.events

def eventsOf : List Member → List Event
  | [] => []
  | m :: ms => m.events ++ eventsOf ms

end

/-- The events of decoding a text. One that cannot be read has no rule to report on. -/
def decodeEvents (css : String) : List Event :=
  match readSheet css with
  | .error _ => []
  | .ok rules =>
    rules.flatMap Rule.readEvents ++ rules.flatMap Rule.events ++
      [.decoded rules.length (outlineOf rules).size]

end CssOutline
