/-! # Columns

Text set in columns of a least width. A text that is longer than its column is kept whole. -/

namespace Lox.Text

/-- The text at the right end of a column of `width` characters, with `fill` before it. -/
def alignRight (width : Nat) (fill : Char) (text : String) : String :=
  String.ofList (text.toList.leftpad width fill)

/-- The text at the left end of a column of `width` characters, with blanks after it. -/
def alignLeft (width : Nat) (text : String) : String :=
  String.ofList (text.toList.rightpad width ' ')

/-- A number with leading zeros up to `width` digits. -/
def zeroPadded (width : Nat) (n : Nat) : String := alignRight width '0' (toString n)

/-- A number at the right end of a column of `width` characters. -/
def padded (width : Nat) (n : Nat) : String := alignRight width ' ' (toString n)

end Lox.Text
