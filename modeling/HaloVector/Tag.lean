/-!
# Tags

Messages between two ranks are told apart by a 16-bit tag. Each activity derives
its tags from one base by adding small offsets, which wrap around.
-/

namespace HaloVector

/-- The label of a message. -/
abbrev Tag := UInt16

namespace Tag

/-- The tag so many places after this one; past the last tag comes the first. -/
def offset (base distance : Tag) : Tag := base + distance

/-- The tag of every gather to all ranks. -/
def allgather : Tag := 0xFFF0

end Tag

/-- The tags of an exchange whose sizes travel first. -/
structure ExchangeTags where
  sizes : Tag
  data : Tag
deriving DecidableEq, Repr

def ExchangeTags.ofBase (base : Tag) : ExchangeTags := ⟨base, base.offset 1⟩

instance : Inhabited ExchangeTags := ⟨.ofBase 0xBEEF⟩

/-- The tags of a ghost exchange: those of its plan and that of its values. -/
structure HaloTags where
  plan : ExchangeTags
  values : Tag
deriving DecidableEq, Repr

def HaloTags.ofBase (base : Tag) : HaloTags := ⟨.ofBase base, base.offset 2⟩

instance : Inhabited HaloTags := ⟨.ofBase 0x6A00⟩

/-- The tags of an assembly. -/
structure AssemblyTags where
  records : ExchangeTags
deriving DecidableEq, Repr

def AssemblyTags.ofBase (base : Tag) : AssemblyTags := ⟨.ofBase base⟩

instance : Inhabited AssemblyTags := ⟨.ofBase 0xA55E⟩

/-- Every tag that a vector uses. -/
structure VectorTags where
  halo : HaloTags
  assembly : AssemblyTags
deriving DecidableEq, Repr

def VectorTags.ofBase (base : Tag) : VectorTags := ⟨.ofBase base, .ofBase (base.offset 4)⟩

instance : Inhabited VectorTags := ⟨.ofBase 0x7100⟩

end HaloVector
