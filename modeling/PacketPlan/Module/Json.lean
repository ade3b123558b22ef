import PacketPlan.Module
import PacketPlan.Text.Json

/-! # Modules as JSON

A module is written with its target, its node and its action; an action is an object under the
action's name.
-/
namespace PacketPlan

open Text (Json)

def Addr.toJson (a : Addr) : Json := .nat a.value

def Symbol.toJson (s : Symbol) : Json :=
  .object [("name", .text s.name), ("width", .nat s.width)]

namespace Expr

mutual

def toJson : Expr → Json
  | const v w => .tagged "Const" [("value", .nat v), ("width", .nat w)]
  | addr a => .object [("Addr", a.toJson)]
  | symbol s => .object [("Symbol", s.toJson)]
  | concat ps => .object [("Concat", .array (toJsonAll ps))]
  | term t w => .tagged "Opaque" [("text", .text t), ("width", .nat w)]

def toJsonAll : List Expr → List Json
  | [] => []
  | p :: ps => p.toJson :: toJsonAll ps

end

end Expr

def Route.toJson : Route → Json
  | forward port => .tagged "Forward" [("port", .nat port)]
  | drop => .text "Drop"
  | broadcast => .text "Broadcast"

def Container.toJson : Container → Json
  | map => .text "Map"
  | vector => .text "Vector"
  | dchain => .text "Dchain"
  | sketch => .text "Sketch"

def Representation.toJson : Representation → Json
  | exactMatchTable => .text "ExactMatchTable"
  | registerArray => .text "RegisterArray"
  | countMinSketch => .text "CountMinSketch"
  | inMemoryMap => .text "InMemoryMap"
  | inMemoryVector => .text "InMemoryVector"
  | inMemoryDchain => .text "InMemoryDchain"
  | inMemorySketch => .text "InMemorySketch"

def Action.toJson : Action → Json
  | parseHeader length chunk =>
    .tagged "ParseHeader" [("length", .nat length), ("chunk", .optional Expr.toJson chunk)]
  | branch condition => .tagged "If" [("condition", condition.toJson)]
  | route r => .object [("Route", r.toJson)]
  | sendToController => .text "SendToController"
  | allocate o c r capacity =>
    .tagged "Allocate" [("obj", o.toJson), ("structure", c.toJson), ("implementation", r.toJson),
      ("capacity", .nat capacity)]
  | tableLookup t keys value hit =>
    .tagged "TableLookup" [("table", t.toJson), ("keys", .list Expr.toJson keys),
      ("value", .optional Expr.toJson value), ("hit", .optional Symbol.toJson hit)]
  | tableLearn t key value =>
    .tagged "TableLearn" [("table", t.toJson), ("key", key.toJson), ("value", value.toJson)]
  | registerRead r index value =>
    .tagged "RegisterRead" [("register", r.toJson), ("index", index.toJson),
      ("value", .optional Expr.toJson value)]
  | registerWrite r index value =>
    .tagged "RegisterWrite" [("register", r.toJson), ("index", index.toJson),
      ("value", value.toJson)]
  | sketchUpdate s key r =>
    .tagged "SketchUpdate" [("sketch", s.toJson), ("key", key.toJson),
      ("implementation", r.toJson)]
  | sketchQuery s key estimate r =>
    .tagged "SketchQuery" [("sketch", s.toJson), ("key", key.toJson),
      ("estimate", .optional Expr.toJson estimate), ("implementation", r.toJson)]
  | mapGet m key value found r =>
    .tagged "MapGet" [("map", m.toJson), ("key", key.toJson),
      ("value", .optional Expr.toJson value), ("found", .optional Symbol.toJson found),
      ("implementation", r.toJson)]
  | mapPut m key value r =>
    .tagged "MapPut" [("map", m.toJson), ("key", key.toJson), ("value", value.toJson),
      ("implementation", r.toJson)]
  | mapErase m key r =>
    .tagged "MapErase" [("map", m.toJson), ("key", key.toJson), ("implementation", r.toJson)]
  | vectorRead v index value r =>
    .tagged "VectorRead" [("vector", v.toJson), ("index", index.toJson),
      ("value", .optional Expr.toJson value), ("implementation", r.toJson)]
  | vectorWrite v index value r =>
    .tagged "VectorWrite" [("vector", v.toJson), ("index", index.toJson), ("value", value.toJson),
      ("implementation", r.toJson)]
  | dchainAllocateIndex c index outOfSpace =>
    .tagged "DchainAllocateIndex" [("chain", c.toJson), ("index", .optional Expr.toJson index),
      ("out_of_space", .optional Symbol.toJson outOfSpace)]
  | dchainRejuvenate c index =>
    .tagged "DchainRejuvenate" [("chain", c.toJson), ("index", index.toJson)]
  | dchainFree c index => .tagged "DchainFree" [("chain", c.toJson), ("index", index.toJson)]
  | expireItems m c => .tagged "ExpireItems" [("map", m.toJson), ("chain", c.toJson)]

def Module.toJson (m : Module) : Json :=
  .object [("target", .text m.target.name), ("node", .nat m.node), ("op", m.action.toJson)]

end PacketPlan
