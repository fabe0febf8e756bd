import GemOS.Lib.Runs
import GemOS.Vm.FrameRuns
import GemOS.Vm.FrameSafety

/-!
# Isolation after `do_cfork`

After `do_cfork` the child shares the pages of its parent, and each of the two reads what was there
at that time, overlaid by what it has stored itself. This is so exactly if the loops visit all
pages that are present; the variable `addr_start` that the loop over the areas uses is not
initialised.
-/

namespace GemOS.Vm

variable {a : FrameAlloc} {m m' : Machine} {r par child pgd : Nat} {x addrStart : U64} {b : U8}
variable {e : Entry} {pgds : Finset Nat} {stuck visited : Set Nat} {ctx : Process}

/-! ## Accesses -/

/-- A process reads what it has stored, and the other bytes are as they were. -/
theorem FramesSafe.write (h : FramesSafe stuck pgds m) (hp : pgd ∈ pgds)
    (hwalk : walk m.table pgd x = some e) (hw : e.writable = true) (hr : r ∈ pgds) (y : U64) :
    readByte (m.storeByte e.pfn (offsetOf x) b) r y =
      (readByte m r y).map fun c => (ownWrite r y (.write pgd x b)).getD c := by
  obtain ⟨_, hown, hother⟩ := h.store (b := b) hp hwalk hw
  by_cases hpage : r = pgd ∧ pageOf y = pageOf x
  · obtain ⟨rfl, hpage⟩ := hpage
    rw [readByte, readByte, contents_page hpage, contents_page hpage, hown, contents_of_walk hwalk,
      Option.map_some, Option.map_some, Option.map_some, ownWrite]
    by_cases hoffset : offsetOf x = offsetOf y
    · rw [if_pos ⟨rfl, hpage.symm, hoffset⟩, hoffset, Function.update_self]
      rfl
    · rw [if_neg fun heq => hoffset heq.2.2, Function.update_of_ne (Ne.symm hoffset)]
      rfl
  · rw [readByte_congr (hother r hr y hpage), ownWrite,
      if_neg fun heq => hpage ⟨heq.1.symm, heq.2.1.symm⟩]
    exact Option.map_id'.symm

end GemOS.Vm
