import CssOutline.Color
import CssOutline.Node

/-!
Colors read from nodes. Channels are scaled to the range of their notation in single precision;
blanks, comments and commas between them do not matter. Anything else in the parentheses means
that the function is not a color.
-/

namespace CssOutline

open Number (Format)

inductive Channel where
  | number (value : Number)
  | percent (value : Number)

namespace Channel

/-- A percentage of a reference value, or the number itself. -/
def scaled (reference : Number) : Channel → Number
  | number value => value
  | percent value => (value.div .single (Format.single.ofNat 100)).mul .single reference

def degrees? (value : Number) (unit : String) : Option Number :=
  match unit.toLower with
  | "deg" => some value
  | "grad" => some (value.mul .single (Format.single.ofRatio false 9 10))
  | "rad" =>
    some (value.mul .single (Format.single.ofDecimal false 572957795130823208767981548141051703 (-34)))
  | "turn" => some (value.mul .single (Format.single.ofNat 360))
  | _ => none

def ofToken? : Token → Option Channel
  | .number n => some (number n.value)
  | .percentage n => some (percent n.percent)
  | .dimension n unit => (degrees? n.value unit).map number
  | .ident name => if Text.sameName name "none" then some (number .zero) else none
  | _ => none

end Channel

def readChannels : List Token → Option (List Channel × Option Channel)
  | [] => some ([], none)
  | .comma :: ts => readChannels ts
  | .delim '/' :: ts => (alphaOf none ts).map ([], ·)
  | t :: ts => do
    let c ← Channel.ofToken? t
    let (cs, alpha) ← readChannels ts
    some (c :: cs, alpha)
where
  alphaOf (alpha : Option Channel) : List Token → Option (Option Channel)
    | [] => some alpha
    | .comma :: ts => alphaOf alpha ts
    | t :: ts =>
      match Channel.ofToken? t, alpha with
      | some c, none => alphaOf (some c) ts
      | _, _ => none

inductive ColorFunction where
  | model (model : ColorModel)
  | predefined
  | lightDark

namespace ColorFunction

def ofName? (name : String) : Option ColorFunction :=
  match name.toLower with
  | "rgb" => some (model .rgb)
  | "rgba" => some (model .rgb)
  | "hsl" => some (model .hsl)
  | "hsla" => some (model .hsl)
  | "hwb" => some (model .hwb)
  | "lab" => some (model .lab)
  | "lch" => some (model .lch)
  | "oklab" => some (model .oklab)
  | "oklch" => some (model .oklch)
  | "color" => some predefined
  | "light-dark" => some lightDark
  | _ => none

end ColorFunction

def ColorModel.references (m : ColorModel) : Number × Number × Number :=
  let whole := Format.single.ofNat
  let small := Format.single.ofRatio false 4 10
  match m with
  | rgb => (whole 255, whole 255, whole 255)
  | hsl => (whole 1, whole 100, whole 100)
  | hwb => (whole 1, whole 100, whole 100)
  | lab => (whole 100, whole 125, whole 125)
  | oklab => (whole 1, small, small)
  | lch => (whole 100, whole 150, whole 1)
  | oklch => (whole 1, small, whole 1)

/-- Three channels and an alpha, which may also stand fourth without a slash. -/
def colorOf (references : Number × Number × Number)
    (make : Number → Number → Number → Number → Color) (tokens : List Token) : Option Color := do
  let (channels, alpha) ← readChannels tokens
  let (a, b, c, alpha) ← (match channels, alpha with
    | [a, b, c], alpha => some (a, b, c, alpha)
    | [a, b, c, d], none => some (a, b, c, some d)
    | _, _ => none : Option (Channel × Channel × Channel × Option Channel))
  some (make (a.scaled references.1) (b.scaled references.2.1) (c.scaled references.2.2)
    ((alpha.map (Channel.scaled .one)).getD .one))

/-- The color of a function from its arguments, each given with the color it is by itself. -/
def ColorFunction.read : ColorFunction → List (Token × Option Color) → Option Color
  | model m, items => colorOf m.references (.channels m) (items.map Prod.fst)
  | predefined, (.ident space, _) :: items =>
    colorOf (.one, .one, .one) (.predefined space) (items.map Prod.fst)
  | predefined, _ => none
  | lightDark, [(_, some light), (.comma, _), (_, some dark)] => some (.lightDark light dark)
  | lightDark, _ => none

def Color.ofToken? : Token → Option Color
  | .ident name => some (if Text.sameName name "currentcolor" then .current else .named name)
  | .hash name => Color.ofHex? name
  | .idHash name => Color.ofHex? name
  | _ => none

namespace Node

mutual

def color? : Node → Option Color
  | leaf l => Color.ofToken? l.token
  | block l body _ =>
    match l.token with
    | .function name => (ColorFunction.ofName? name).bind fun f => f.read (colorItems body)
    | _ => none

def colorItems : List Node → List (Token × Option Color)
  | [] => []
  | n :: ns => if n.isTrivia then colorItems ns else (n.token, color? n) :: colorItems ns

end

end Node

end CssOutline
