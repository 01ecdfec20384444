import Fsfuse.Native.CString

/-!
# Configuration

`src/config/`: the items of `config-config.xml`, the loader of config files, the stack of
layers the manager keeps, and the readers that are generated for the items. A config file
is what libxml2 finds in it for an XPath.
-/

namespace Fsfuse.Native.Config

/-! ### Items -/

/-- The types of items. No item is a float. -/
inductive ItemType
  | string
  | integer
  | stringCollection
deriving Repr, DecidableEq

/-- The C type of an item; a collection ends at its `NULL`. -/
abbrev ItemType.Value : ItemType → Type
  | .string => List UInt8
  | .integer => Int
  | .stringCollection => List (List UInt8)

/-- The items of `config-config.xml`. -/
inductive Item
  | alias_
  | timeoutChunk
  | timeoutCache
  | indexnodeAutodetectListen
  | indexnodeAdvertPort
  | indexnodeTimeout
  | indexnodeHosts
  | indexnodePorts
  | attrModeFile
  | attrModeDir
  | attrIdUid
  | attrIdGid
  | procDebug
  | procSinglethread
  | procFg
  | optionCache
  | optionCacheNegative
  | peersFavourites
  | peersBlocked
deriving Repr, DecidableEq

namespace Item

/-- The type of an item. -/
def type : Item → ItemType
  | alias_ => .string
  | indexnodeHosts | indexnodePorts | peersFavourites | peersBlocked => .stringCollection
  | _ => .integer

/-- The default of an item. -/
def default : (item : Item) → item.type.Value
  | alias_ => ascii "[fsfuse]Anonymous"
  | timeoutChunk => (5 : Int)
  | timeoutCache => (60 : Int)
  | indexnodeAutodetectListen => (1 : Int)
  | indexnodeAdvertPort => (42444 : Int)
  | indexnodeTimeout => (5 : Int)
  | indexnodeHosts => []
  | indexnodePorts => []
  | attrModeFile => (0o444 : Int)
  | attrModeDir => (0o555 : Int)
  | attrIdUid => (-1 : Int)
  | attrIdGid => (-1 : Int)
  | procDebug => (0 : Int)
  | procSinglethread => (0 : Int)
  | procFg => (0 : Int)
  | optionCache => (1 : Int)
  | optionCacheNegative => (1 : Int)
  | peersFavourites => []
  | peersBlocked => []

/-- Where a file has an item. -/
def xpath : Item → String
  | alias_ => "/config/alias/text()"
  | timeoutChunk => "/config/timeouts/chunk/text()"
  | timeoutCache => "/config/timeouts/cache/text()"
  | indexnodeAutodetectListen => "/config/indexnode/autodetect/listen/text()"
  | indexnodeAdvertPort => "/config/indexnode/autodetect/advert_port/text()"
  | indexnodeTimeout => "/config/indexnode/timeout/text()"
  | indexnodeHosts => "/config/indexnode/host/text()"
  | indexnodePorts => "/config/indexnode/port/text()"
  | attrModeFile => "/config/node-attrs/mode/file/text()"
  | attrModeDir => "/config/node-attrs/mode/directory/text()"
  | attrIdUid => "/config/node-attrs/id/uid/text()"
  | attrIdGid => "/config/node-attrs/id/gid/text()"
  | procDebug => "/config/process/debug/text()"
  | procSinglethread => "/config/process/single-thread/text()"
  | procFg => "/config/process/foreground/text()"
  | optionCache => "/config/options/cache/text()"
  | optionCacheNegative => "/config/options/cache_negative/text()"
  | peersFavourites => "/config/peers/favourites/favourite/text()"
  | peersBlocked => "/config/peers/blocked/block/text()"

end Item

/-! ### Loading -/

/-- A layer, `config_data_t`: an item has a value if it is marked present. -/
abbrev Data := (item : Item) → Option item.type.Value

/-- A document: the contents of the text nodes that match an XPath. -/
abbrev Document := String → List (List UInt8)

/-- `config_defaults_get`. -/
def defaultsGet : Data := fun item => some item.default

/-- `xpath_get`: the text, if there is one of it. -/
def xpathGet (xpath : String) (doc : Document) : Option (List UInt8) :=
  match doc xpath with
  | [text] => some text
  | _ => none

/-- `xpath_get_array`. Without any match it is an array all the same. -/
def xpathGetArray (xpath : String) (doc : Document) : Option (List (List UInt8)) :=
  some (doc xpath)

/-- What a document gives an item of a type. -/
def ItemType.load (xpath : String) (doc : Document) : (type : ItemType) → Option type.Value
  | .string => xpathGet xpath doc
  | .integer => (xpathGet xpath doc).map fun val => longToInt (strtoul val)
  | .stringCollection => xpathGetArray xpath doc

/-- `config_loader_tryread_from_file`, of a file that is read as `doc` or not at all. -/
def tryreadFromFile (doc : Option Document) : Option Data :=
  doc.map fun doc item => item.type.load item.xpath doc

/-- The arguments of `config_manager_add_from_cmdline`. -/
structure Cmdline where
  debugSet : Int
  debug : Int
  singlethreadSet : Int
  singlethread : Int
  fgSet : Int
  fg : Int

/-- The data of `config_manager_add_from_cmdline`. -/
def Cmdline.data (c : Cmdline) : Data
  | .procDebug => if c.debugSet ≠ 0 then some c.debug else none
  | .procSinglethread => if c.singlethreadSet ≠ 0 then some c.singlethread else none
  | .procFg => if c.fgSet ≠ 0 then some c.fg else none
  | _ => none

/-! ### The stack -/

/-- What the manager is asked to add: a file, read or not, or the command line. -/
inductive Layer
  | file (doc : Option Document)
  | cmdline (c : Cmdline)

/-- What is pushed for a layer: nothing for a file that cannot be read. -/
def Layer.data : Layer → Option Data
  | .file doc => tryreadFromFile doc
  | .cmdline c => some c.data

/-- The manager's `data_stack`, from the defaults up. -/
def dataStack (layers : List Layer) : List Data := defaultsGet :: layers.filterMap Layer.data

/-- `config_<item>`: the topmost layer the item is present in. -/
def read (item : Item) (datas : List Data) : Except Fault item.type.Value :=
  match datas.reverse.findSome? fun data => data item with
  | some val => .ok val
  | none => .error .assertion

end Fsfuse.Native.Config
