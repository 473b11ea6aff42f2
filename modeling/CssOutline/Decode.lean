import CssOutline.Outline
import CssOutline.Sheet.Reader

/-!
The outline of a style sheet. Each rule merges a block under the text of its head, each
declaration a value under its property; an at-rule without a block is an empty value. The body
of an at-rule kept as text stands inside the at-rule's block under the same key. What has no text
of its own is replaced by a fixed word, and what could not be read is left out.
-/

namespace CssOutline

def textOr (r : Except RenderError String) : String :=
  match r with
  | .ok text => text
  | .error _ => unableToParse

/-- The property and the value text of a declaration. -/
def Declaration.entry (d : Declaration) : String × String :=
  (d.property.text, textOr d.value.render ++ if d.important then " !important" else "")

def atKey (name : String) (clause : Prelude) : String :=
  match atRuleKey name clause with
  | .ok key => key
  | .error _ => "@" ++ name ++ " " ++ unableToParse

def verbatimBody (text : String) : String :=
  String.ofList
    (Text.trimEnd ((Text.trimEnd text.toList).reverse.dropWhile (· == ';')).reverse)

def verbatimBlock (key text : String) : Outline :=
  if verbatimBody text = "" then .nil else .value key (verbatimBody text) .nil

mutual

def Rule.addTo (d : Outline) : Rule → Outline
  | .style _ head body => d.mergeItem head.render (.block (addMembers .nil body))
  | .atRule _ name clause body => d.mergeItem (atKey name clause) (body.item (atKey name clause))
  | .unrecognized _ _ _ => d

def AtBody.item (key : String) : AtBody → Item
  | .none => .value ""
  | .members list => .block (addMembers .nil list)
  | .verbatim text => .block (verbatimBlock key text)

def Member.addTo (d : Outline) : Member → Outline
  | .declaration declaration => d.mergeItem declaration.entry.1 (.value declaration.entry.2)
  | .rule rule => rule.addTo d

def addMembers (d : Outline) : List Member → Outline
  | [] => d
  | m :: ms => addMembers (m.addTo d) ms

end

/-- The outline of a list of rules. -/
def outlineOf (rules : List Rule) : Outline :=
  rules.foldl Rule.addTo .nil

def decode (css : String) : Except ParseError Outline :=
  (readSheet css).map outlineOf

end CssOutline
