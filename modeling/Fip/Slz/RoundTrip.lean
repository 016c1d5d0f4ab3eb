import Fip.Slz.Packing
import Fip.Slz.Unpacking

/-!
# Unpacking what was packed

The packer writes the packed form of tokens that expand to its input, and the
unpacker expands them, from any contents of its history on.
-/

namespace Fip.Slz

open Fip.Lz77

/-- The unpacker in front of a file. -/
theorem behind_start (history : ℕ → UInt8) (lzhistOffset : Fin 4096) (inbuffer : List UInt8) :
    Behind
      { inbuffer := inbuffer
        myTAG := 0
        loop1 := 8
        history := history
        lzhistOffset := lzhistOffset
        outfile := [] } inbuffer [] :=
  ⟨rfl, rfl, rfl, ⟨lzhistOffset.2, recalls_nil 4096 history lzhistOffset⟩⟩

/-- Every file of at least three bytes is packed, whatever lies behind it in memory, and
the unpacker writes it again, whatever its history holds. -/
theorem unPackSLZ_packSLZ (inbuffer : List UInt8) (hlength : 3 ≤ inbuffer.length)
    (past : ℕ → ℕ → UInt8) :
    ∃ fuel packed, packSLZ inbuffer past fuel = some packed ∧
      ∀ (history : ℕ → UInt8) (lzhistOffset : Fin 4096),
        ∃ fuel, unPackSLZ fuel history lzhistOffset packed = some inbuffer := by
  obtain ⟨fuel, tokens, hpacked, hvalid, htext⟩ := packSLZ_spec past hlength
  refine ⟨fuel, encode [] tokens, hpacked, fun history lzhistOffset => ?_⟩
  have hempty : ([] : List (Token UInt8)).length ≤ 8 := Nat.zero_le 8
  obtain ⟨more, hrun⟩ := encode_run hempty hvalid
    (behind_start history lzhistOffset (encode [] tokens))
  refine ⟨more, ?_⟩
  rw [unPackSLZ, hrun]
  exact congrArg some htext

/-- Three bytes three times: a group of seven literals and a match, and another group. -/
def repeating : List UInt8 := [1, 2, 3, 1, 2, 3, 1, 2, 3, 4, 5, 6, 7, 8, 9]

theorem unPackSLZ_packSLZ_match :
    packSLZ repeating (fun _ _ => 97) 40 =
        some [0x10, 1, 2, 3, 4, 3, 4, 5, 6, 7, 0x20, 8, 9, 0, 0] ∧
      ∃ fuel packed, packSLZ repeating (fun _ _ => 97) fuel = some packed ∧
        ∀ (history : ℕ → UInt8) (lzhistOffset : Fin 4096),
          ∃ fuel, unPackSLZ fuel history lzhistOffset packed = some repeating :=
  ⟨by decide +kernel, unPackSLZ_packSLZ repeating (by decide) fun _ _ => 97⟩

end Fip.Slz
