import Mathlib.Tactic

/-!
# The boot ROM contents: `boot_rom_body.vh`

Generated by `tools/build_boot_rom.py` and included verbatim in `mem.v`'s `rom_word_at`.
-/

namespace AgilA32

/-- The 44 instruction words, in address order. -/
def bootRomBody : List (BitVec 32) :=
  [ 0x0a500113, 0x0e200023, 0x0e004303, 0x00000413, 0x00230463, 0x08000413, 0x00000493, 0x0f402103,
    0x00417113, 0x02011263, 0x00148493, 0x00f4f193, 0x00346133, 0x0e202823, 0x0094d193, 0xfe0180e3,
    0x0e002c23, 0x0280006f, 0x028000ef, 0x00030233, 0x0b400293, 0x00020c63, 0x018000ef, 0x00628023,
    0x00128293, 0xfff20213, 0xfedff06f, 0x0480006f, 0x00000313, 0x00000393, 0x0f402103, 0x00217193,
    0xfe018ce3, 0x00117113, 0x00131313, 0x00010463, 0x00136313, 0x0f402103, 0x00217113, 0xfe011ce3,
    0x00138393, 0x00800193, 0xfc33c8e3, 0x00008067 ]

/-- `rom_word_at`: the unused word indices read zero. -/
def romWordAt (widx : BitVec 6) : BitVec 32 := bootRomBody.getD widx.toNat 0

end AgilA32
