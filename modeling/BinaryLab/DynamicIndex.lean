-- What `parse_dynamic` leaves of an object: the last entry of each tag, the
-- hash table, and nothing else. The index of `l_info` is compared with DT_NUM
-- only, so a negative tag stores in front of it.
import BinaryLab.RpathTable
import Mathlib.Data.Finset.Card

set_option linter.style.nameCheck false

open binary_lab.runs binary_lab.words

namespace elf_loader.load

/-! ## The last entry with a tag -/

section

variable {rpath : List CString} {tab : List Byte} {dyns : List Dyn} {dyn : Dyn}

end

/-! ## A call of the parser -/

section

variable {reads : Reads} {rpath : List CString} {map map' : LinkMap}

theorem setup_hash_none (h : map.l_info DT_HASH = none) : setup_hash map = .ok map := by
  rw [setup_hash, h]
  rfl

end

end elf_loader.load
