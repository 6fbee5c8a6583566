import GnomeBuildMeta.Control.Except
import GnomeBuildMeta.Initramfs.UnitReading

/-!
# How parsed units compare with the syntax

One lemma says where the lines of an item that fits lead from the state after
items that all fit, and another one what is wrong after an item that does not.
-/

namespace GnomeBuildMeta.Initramfs

open Control

/-! ## Rounds of the loop -/

end GnomeBuildMeta.Initramfs
