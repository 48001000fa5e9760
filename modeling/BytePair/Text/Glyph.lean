import BytePair.Token

/-!
# Visible bytes

Every byte has a glyph of its own, so that white space and control bytes show in summaries and
exports, and different byte strings look different.
-/

namespace BytePair.Text

/-- Whether the byte, read as a Latin-1 code point, is shown as itself. -/
def isSelfVisible (b : UInt8) : Bool :=
  0x21 ≤ b && b ≤ 0x7E || 0xA1 ≤ b && b ≤ 0xAC || 0xAE ≤ b

/-- The glyph of a byte. The bytes that are not shown as themselves (0 to 0x20, 0x7F to 0xA0 and
0xAD) take the code points from 256 on, in their order. -/
def glyph (b : UInt8) : Char :=
  if isSelfVisible b then Char.ofNat b.toNat
  else if b ≤ 0x20 then Char.ofNat (256 + b.toNat)
  else if b ≤ 0xA0 then Char.ofNat (256 + 0x21 + (b.toNat - 0x7F))
  else Char.ofNat (256 + 0x21 + 0x22)

/-- The byte that a glyph stands for. -/
def byteOfGlyph (c : Char) : UInt8 :=
  if c.toNat ≤ 0xFF then UInt8.ofNat c.toNat
  else if c.toNat ≤ 0x120 then UInt8.ofNat (c.toNat - 256)
  else if c.toNat ≤ 0x142 then UInt8.ofNat (c.toNat - (256 + 0x21) + 0x7F)
  else 0xAD

@[simp]
theorem byteOfGlyph_glyph (b : UInt8) : byteOfGlyph (glyph b) = b := by
  have h : ∀ i : Fin 256, byteOfGlyph (glyph (UInt8.ofFin i)) = UInt8.ofFin i := by
    decide +kernel
  exact h b.toFin

/-- No two bytes share a glyph. -/
theorem glyph_injective {a b : UInt8} (h : glyph a = glyph b) : a = b := by
  rw [← byteOfGlyph_glyph a, h, byteOfGlyph_glyph]

/-- The glyphs of a byte string. -/
def visible (bs : Bytes) : String := String.ofList (bs.map glyph)

/-- No two byte strings look the same. -/
theorem visible_injective {as bs : Bytes} (h : visible as = visible bs) : as = bs := by
  have hmap : as.map glyph = bs.map glyph := by simpa [visible] using congrArg String.toList h
  simpa [Function.comp_def] using congrArg (List.map byteOfGlyph) hmap

end BytePair.Text
