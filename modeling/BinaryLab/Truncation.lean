-- The same text in a smaller and in a larger buffer: when the smaller one
-- shows the start of what the larger one shows.
import BinaryLab.Rendering

set_option linter.style.nameCheck false

open binary_lab.words binary_lab.texts

namespace elf_loader.lib

/-- The smaller buffer has the first characters of the larger one exactly if
its last character is not in the field of a number, or the characters of the
field that it has are also the first ones that the larger one has. -/
theorem a_smaller_buffer_has_a_prefix_iff_no_number_is_cut (strs : Addr → CString)
    (bytes bytes' : Int → Byte) (m n : Nat) (format : List Byte) (va : VaList) (hm : 1 ≤ m)
    (hmn : m ≤ n) :
    (dvsprintf strs bytes m format va).1.text =
        (dvsprintf strs bytes' n format va).1.text.take (m - 1) ↔
      CutsWell (m - 1) (n - 1) (formatPieces strs format va) := by
  rw [dvsprintf.text hm, dvsprintf.text (Nat.le_trans hm hmn)]
  exact render_eq_take_iff (Nat.sub_le_sub_right hmn 1) _

/-- In four bytes, `n=%d` is cut inside the number 77, whose digits repeat. -/
theorem a_number_that_repeats_is_cut_to_a_prefix :
    let format := (CString.lit "n=%d".toList).bytes ++ [0]
    (dvsprintf (fun _ => CString.lit []) (fun _ => 0) 4 format (fun _ => 77)).1.text =
      (dvsprintf (fun _ => CString.lit []) (fun _ => 0) 10 format (fun _ => 77)).1.text.take 3 :=
  (a_smaller_buffer_has_a_prefix_iff_no_number_is_cut (fun _ => CString.lit []) (fun _ => 0)
    (fun _ => 0) 4 10 ((CString.lit "n=%d".toList).bytes ++ [0]) (fun _ => 77) (by decide)
    (by decide)).mpr (by decide +kernel)

/-- In four bytes, `%d` shows the last three digits of 12345. -/
theorem a_number_is_cut_to_its_last_digits :
    let format := (CString.lit "%d".toList).bytes ++ [0]
    (dvsprintf (fun _ => CString.lit []) (fun _ => 0) 4 format (fun _ => 12345)).1.text =
        (CString.lit "345".toList).bytes ∧
      (dvsprintf (fun _ => CString.lit []) (fun _ => 0) 10 format (fun _ => 12345)).1.text =
        (CString.lit "12345".toList).bytes := by
  decide +kernel

end elf_loader.lib
