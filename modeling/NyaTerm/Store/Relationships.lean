import NyaTerm.Lib.Walk

open Walk

namespace NyaTerm.Store

inductive StorageError
  | invalidData
  | json
  deriving DecidableEq

def invalid : StorageError := .invalidData

structure Group where
  id : String
  parentId : Option String
  deriving DecidableEq

inductive ConnectionType
  | ssh
  | localTerminal
  | telnet
  | serial
  | rdp
  | vnc
  deriving DecidableEq

structure ConnectionNetwork where
  proxyId : Option String
  proxyJumpId : Option String
  deriving DecidableEq

structure SavedConnection where
  id : String
  config : ConnectionType
  groupId : Option String
  network : Option ConnectionNetwork
  deriving DecidableEq

namespace SavedConnection

def isSsh (connection : SavedConnection) : Bool :=
  connection.config = .ssh

def proxyId (connection : SavedConnection) : Option String :=
  connection.network.bind (·.proxyId)

def proxyJumpId (connection : SavedConnection) : Option String :=
  connection.network.bind (·.proxyJumpId)

end SavedConnection

structure ProxyConfig where
  id : String
  groupId : Option String
  deriving DecidableEq

structure TunnelConfig where
  id : String
  groupId : Option String
  connectionId : Option String
  deriving DecidableEq

structure QuickCommandCategory where
  id : String
  parentId : Option String
  deriving DecidableEq

structure QuickCommand where
  id : String
  categoryId : Option String
  deriving DecidableEq

-- The collections between which there are references, once they have been read. A group of proxies or
-- of tunnels is its id.
structure Catalogue where
  connections : List SavedConnection
  groups : List Group
  proxies : List ProxyConfig
  proxyGroups : List String
  tunnels : List TunnelConfig
  tunnelGroups : List String
  commands : List QuickCommand
  categories : List QuickCommandCategory
  deriving DecidableEq

section Validation

-- `if …is_some_and(|id| !known(id)) { return Err(invalid()) }`.
def require (reference : Option String) (known : String → Bool) : Looping StorageError Unit :=
  if reference.any fun id => !known id then throw invalid else pure ()

variable (fuel : Nat) (catalogue : Catalogue)

def validateGroup (group : Group) : Looping StorageError Unit :=
  chain (·.id) (follow (·.id) (·.parentId) (fun _ => true) invalid catalogue.groups) invalid fuel []
    (some group)

def validateConnection (connection : SavedConnection) : Looping StorageError Unit := do
  require connection.groupId fun id => catalogue.groups.any (·.id = id)
  require connection.proxyId fun id => catalogue.proxies.any (·.id = id)
  chain (·.id) (follow (·.id) (·.proxyJumpId) (·.isSsh) invalid catalogue.connections) invalid fuel []
    (some connection)

def validateProxy (proxy : ProxyConfig) : Looping StorageError Unit :=
  require proxy.groupId fun id => catalogue.proxyGroups.any (· = id)

def validateTunnel (tunnel : TunnelConfig) : Looping StorageError Unit := do
  require tunnel.groupId fun id => catalogue.tunnelGroups.any (· = id)
  require tunnel.connectionId fun id => (last (·.id) catalogue.connections id).any (·.isSsh)

def validateCategory (category : QuickCommandCategory) : Looping StorageError Unit :=
  chain (·.id) (follow (·.id) (·.parentId) (fun _ => true) invalid catalogue.categories) invalid fuel
    [] (some category)

def validateCommand (command : QuickCommand) : Looping StorageError Unit :=
  require command.categoryId fun id => catalogue.categories.any (·.id = id)

def validateCatalogue : Looping StorageError Unit := do
  catalogue.groups.forM (validateGroup fuel catalogue)
  catalogue.connections.forM (validateConnection fuel catalogue)
  catalogue.proxies.forM (validateProxy catalogue)
  catalogue.tunnels.forM (validateTunnel catalogue)
  catalogue.categories.forM (validateCategory fuel catalogue)
  catalogue.commands.forM (validateCommand catalogue)

end Validation

-- The entities are read first, by the readers of the collections taken together.
def validateRelationships {Entities : Type} (read : Entities → Except StorageError Catalogue)
    (fuel : Nat) (entities : Entities) : Looping StorageError Unit := do
  let catalogue ← ExceptT.mk (some (read entities))
  validateCatalogue fuel catalogue

end NyaTerm.Store
