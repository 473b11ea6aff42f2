import CssOutline.Number.Decimal
import CssOutline.Text

/-!
Colors, one form per notation, and their text. Every color has a text except one in a color
space that is not known; the space of a `color()` is kept as written until then.
-/

namespace CssOutline

inductive ColorModel where
  | rgb
  | hsl
  | hwb
  | lab
  | oklab
  | lch
  | oklch
deriving DecidableEq, Repr

inductive Color where
  | current
  /-- A color name, which only the operands of `light-dark()` hold. -/
  | named (name : String)
  | channels (model : ColorModel) (first second third alpha : Number)
  | predefined (space : String) (first second third alpha : Number)
  | lightDark (light dark : Color)
deriving DecidableEq, Repr

inductive ColorSpace where
  | srgb
  | srgbLinear
  | displayP3
  | a98Rgb
  | prophotoRgb
  | rec2020
  | xyzD50
  | xyzD65
deriving DecidableEq, Repr

inductive RenderError where
  | unknownColorSpace (space : String)
deriving DecidableEq, Repr

def RenderError.message : RenderError → String
  | unknownColorSpace space => "Unknown color space '" ++ space ++ "'"

namespace ColorSpace

def name : ColorSpace → String
  | srgb => "srgb"
  | srgbLinear => "srgb-linear"
  | displayP3 => "display-p3"
  | a98Rgb => "a98-rgb"
  | prophotoRgb => "prophoto-rgb"
  | rec2020 => "rec2020"
  | xyzD50 => "xyz-d50"
  | xyzD65 => "xyz-d65"

/-- The function a color of the space is written as. -/
def function : ColorSpace → String
  | srgb => "srgb-rgb"
  | srgbLinear => "srgb-linear-rgb"
  | displayP3 => "display-p3-rgb"
  | a98Rgb => "a98-rgb"
  | prophotoRgb => "prophoto-rgb"
  | rec2020 => "rec2020-rgb"
  | xyzD50 => "xyz-d50"
  | xyzD65 => "xyz-d65"

/-- The space with a name, in any case; plain `xyz` is the one with white point D65. -/
def ofName (s : String) : Except RenderError ColorSpace :=
  match s.toLower with
  | "srgb" => .ok srgb
  | "srgb-linear" => .ok srgbLinear
  | "display-p3" => .ok displayP3
  | "a98-rgb" => .ok a98Rgb
  | "prophoto-rgb" => .ok prophotoRgb
  | "rec2020" => .ok rec2020
  | "xyz-d50" => .ok xyzD50
  | "xyz" => .ok xyzD65
  | "xyz-d65" => .ok xyzD65
  | _ => .error (.unknownColorSpace s)

end ColorSpace

def ColorModel.name : ColorModel → String
  | rgb => "rgb"
  | hsl => "hsl"
  | hwb => "hwb"
  | lab => "lab"
  | oklab => "oklab"
  | lch => "lch"
  | oklch => "oklch"

/-- The mark after the second and third channel. -/
def ColorModel.mark : ColorModel → String
  | hsl => "%"
  | hwb => "%"
  | _ => ""

namespace Color

def alphaSuffix (alpha : Number) : String :=
  if alpha.isBelowOne then " / " ++ alpha.format else ""

def channelText (function mark : String) (first second third alpha : Number) : String :=
  function ++ "(" ++ first.format ++ " " ++ second.format ++ mark ++ " " ++ third.format ++
    mark ++ alphaSuffix alpha ++ ")"

def render : Color → Except RenderError String
  | current => .ok "currentcolor"
  | named name => .ok name
  | channels model a b c alpha => .ok (channelText model.name model.mark a b c alpha)
  | predefined space a b c alpha => do
    let space ← ColorSpace.ofName space
    .ok (channelText space.function "" a b c alpha)
  | lightDark light dark => do
    let light ← light.render
    let dark ← dark.render
    .ok ("light-dark(" ++ light ++ " " ++ dark ++ ")")

def ofHex? (s : String) : Option Color := do
  let ds ← s.toList.mapM Text.hexValue?
  let (r, g, b, a) ← (match ds with
    | [r, g, b] => some (17 * r, 17 * g, 17 * b, 255)
    | [r, g, b, a] => some (17 * r, 17 * g, 17 * b, 17 * a)
    | [r, r', g, g', b, b'] => some (16 * r + r', 16 * g + g', 16 * b + b', 255)
    | [r, r', g, g', b, b', a, a'] =>
      some (16 * r + r', 16 * g + g', 16 * b + b', 16 * a + a')
    | _ => none : Option (Nat × Nat × Nat × Nat))
  let single := Number.Format.single
  some (.channels .rgb (single.ofNat r) (single.ofNat g) (single.ofNat b)
    ((single.ofNat a).div single (single.ofNat 255)))

end Color

end CssOutline
