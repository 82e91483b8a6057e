import Lox.Resolution
import Std.Data.TreeMap

/-!
# The table of distances

Where a machine keeps the distances that resolution found, by the sites of the references. A site
that has no entry is a reference to a global.
-/

namespace Lox

structure Distances where
  table : Std.TreeMap Nat Nat

namespace Distances

def empty : Distances := ⟨∅⟩

def find? (d : Distances) (site : Nat) : Option Nat := d.table[site]?

def record (d : Distances) (r : Resolution) : Distances := ⟨d.table.insert r.token.site r.distance⟩

def recordAll (d : Distances) (rs : List Resolution) : Distances := rs.foldl record d

def size (d : Distances) : Nat := d.table.size

@[simp] theorem find?_empty (site : Nat) : empty.find? site = none := by simp [find?, empty]

theorem find?_record (d : Distances) (r : Resolution) (site : Nat) :
    (d.record r).find? site = if r.token.site = site then some r.distance else d.find? site := by
  simp [find?, record, Std.TreeMap.getElem?_insert]

end Distances
end Lox
