import ExportIndex.Catalog

/-!
What changed between two catalogs. A name that both have is updated when one of
its entries is in only one of the two lists; order and repetition do not count.
Added and updated names come with their complete new lists.
-/
namespace ExportIndex

structure Delta where
  added : OrderedMap String (List Entry)
  updated : OrderedMap String (List Entry)
  deleted : List String

namespace Delta

def differ (old new : List Entry) : Bool :=
  old.any (!new.contains ·) || new.any (!old.contains ·)

def between (old new : Catalog) : Delta where
  added := new.lists.filter fun name _ => !old.contains name
  updated := new.lists.filter fun name entries => (old.get? name).any (differ · entries)
  deleted := old.names.filter (!new.contains ·)

def isEmpty (d : Delta) : Bool := d.added.isEmpty && d.updated.isEmpty && d.deleted.isEmpty

def size (d : Delta) : Nat := d.added.size + d.updated.size + d.deleted.length

def patch (d : Delta) (c : Catalog) : Catalog :=
  ⟨(d.added.entries ++ d.updated.entries).foldl (fun m e => m.insert e.1 e.2)
    (d.deleted.foldl .erase c.lists)⟩

end Delta

end ExportIndex
