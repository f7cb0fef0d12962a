import ApexDB.Client
import ApexDB.KvStore
import ApexDB.Sharding

/-!
# `Cli.lean` — how the programs start

`include/cli.hpp`, and `main` of the four programs as far as the arguments and the environment
go: what they make of them is a configuration (`Start.go`), or they return at once with a code
and a text on `stderr`.

`shard_main.cpp` and `proxy.cpp` have one loop over the arguments, with other options in it.
`client.cpp` stops at the first argument that is no option, so `-h` without a host is a command
there.

The loop over `KV_SHARDS` is the only one that could fail to end or leave its string, so it is
the only part that may be a fault; everything else is by recursion on the arguments. The texts
are those of the source, with the name of the program put in.
-/

set_option autoImplicit false

namespace ApexDB

open Lib

/-! ## 1. `cli.hpp`

A number is digits and nothing else, and at most the bound. A port is one from 1 to 65535.
-/

/-- `std::from_chars` on a `uint64_t`: the value and how much was read, `none` on an error. -/
def fromCharsU64 (s : Bytes) : Option (Nat × Nat) :=
  let ds := s.takeWhile isDigit
  let v := digitsVal ds
  if ds.isEmpty then none else if v < 2 ^ 64 then some (v, ds.length) else none

/-- `parse_unsigned`; `none` for false. -/
def parseUnsigned (text : Bytes) (maximum : Nat) : Option Nat :=
  if text.isEmpty then none
  else
    match fromCharsU64 text with
    | none => none
    | some (value, n) => if n = text.length ∧ value ≤ maximum then some value else none

def parsePort (text : Bytes) : Option Nat :=
  match parseUnsigned text 65535 with
  | none => none
  | some value => if value = 0 then none else some (value % 2 ^ 16)

/-! ## 2. Endpoints

The last colon separates the host from the port, so an address that has colons itself needs no
brackets. `KV_SHARDS` is cut at commas; an empty piece is not a valid endpoint, except that
nothing need follow the last comma.
-/

structure ShardEndpoint where
  host : Bytes
  port : Nat
  deriving DecidableEq

/-- `s.rfind(c)`; `npos` is `none`. -/
def rfind (c : UInt8) (s : Bytes) : Option Nat := (s.reverse.idxOf? c).map fun i => s.length - 1 - i

/-- `s.find(c, start)`. -/
def find (c : UInt8) (s : Bytes) (start : Nat) : Option Nat := ((s.drop start).idxOf? c).map (start + ·)

/-- `parse_host_port`: the last colon counts. -/
def parseHostPort (s : Bytes) : Option ShardEndpoint :=
  match rfind 58 s with
  | none => none
  | some colon =>
    if colon = 0 ∨ s.length ≤ colon + 1 then none
    else (parsePort (s.drop (colon + 1))).map fun port => { host := s.take colon, port := port }

/-- One turn of the loop over `KV_SHARDS`; `none` inside when an endpoint is not valid. -/
def kvShardsTurn (spec : Bytes) (s : Nat × List ShardEndpoint) :
    Option (Turn (Nat × List ShardEndpoint) (Option (List ShardEndpoint))) :=
  let (start, shards) := s
  if spec.length ≤ start then some (.done (some shards))
  else
    let comma := find 44 spec start
    let part := comma.elim (spec.drop start) fun comma => (spec.drop start).take (comma - start)
    match parseHostPort part with
    | none => some (.done none)
    | some ep => some (comma.elim (.done (some (shards ++ [ep]))) fun comma => .again (comma + 1, shards ++ [ep]))

def kvShards (spec : Bytes) : Option (Option (List ShardEndpoint)) :=
  loop (kvShardsTurn spec) (spec.length + 1) (0, [])

/-! ## 3. The loop over the arguments

An option takes the argument behind it. One without an argument, or an argument that is no
option, shows the usage; `--help` and `-h` do so with code 0.
-/

/-- `main` returns at once, or it goes on. -/
inductive Start (α : Type) where
  | exit (code : Nat) (err : Bytes)
  | go (config : α)

/-- The code for an argument that is no option. -/
def helpCode (arg : Bytes) : Nat := if arg = bytes "--help" ∨ arg = bytes "-h" then 0 else 1

/-- The loop of `shard_main.cpp` and `proxy.cpp`: an option takes the argument behind it. The
code when `main` returns. -/
def optionLoop {α : Type} (options : List (Bytes × (Bytes → α → Option α))) : α → List Bytes → Except Nat α
  | config, [] => .ok config
  | _, [arg] => .error (helpCode arg)
  | config, arg :: value :: rest =>
    match options.lookup arg with
    | none => .error (helpCode arg)
    | some set =>
      match set value config with
      | none => .error 1
      | some config => optionLoop options config rest

/-! ## 4. The programs

Each `main` sets its defaults, runs its loop, and checks what the loop could not: that a shard's
number is below the number of shards, that a proxy has a shard, that a client has a command.
-/

/-- `main` of `server.cpp`: the port. -/
def serverMain (prog : Bytes) (args : List Bytes) : Start Nat :=
  let usage := bytes "Usage: " ++ prog ++ bytes " [--port PORT]\n"
  match args with
  | [] => .go 6379
  | [arg] => .exit (if arg = bytes "--help" then 0 else 1) usage
  | [arg, text] =>
    if arg ≠ bytes "--port" then .exit 1 usage
    else
      match parsePort text with
      | none => .exit 1 usage
      | some port => .go port
  | _ => .exit 1 usage

structure ShardConfig where
  shardId : Nat := 0
  numShards : Nat := 1
  port : Nat := 7000
  deriving DecidableEq

/-- The options of `shard_main.cpp`. -/
def shardOptions : List (Bytes × (Bytes → ShardConfig → Option ShardConfig)) :=
  [(bytes "--id", fun text c => (parseUnsigned text (2 ^ 64 - 1)).map fun v => { c with shardId := v }),
    (bytes "--shards", fun text c => (parseUnsigned text (2 ^ 64 - 1)).map fun v => { c with numShards := v }),
    (bytes "--port", fun text c => (parsePort text).map fun v => { c with port := v })]

def shardUsage (prog : Bytes) : Bytes :=
  bytes "Usage: " ++ prog ++ bytes " [--id SHARD_ID] [--shards NUM_SHARDS] [--port PORT]\n" ++
    bytes "  Defaults: id=0, shards=1, port=7000\n"

def shardMain (prog : Bytes) (args : List Bytes) : Start ShardConfig :=
  match optionLoop shardOptions {} args with
  | .error code => .exit code (shardUsage prog)
  | .ok config =>
    if config.numShards ≤ config.shardId then .exit 1 (bytes "shard id must be in [0, num_shards)\n")
    else .go config

structure ProxyConfig where
  port : Nat := 6379
  shards : List ShardEndpoint := []
  deriving DecidableEq

/-- The options of `proxy.cpp`. -/
def proxyOptions : List (Bytes × (Bytes → ProxyConfig → Option ProxyConfig)) :=
  [(bytes "--port", fun text c => (parsePort text).map fun v => { c with port := v }),
    (bytes "--shard", fun text c => (parseHostPort text).map fun ep => { c with shards := c.shards ++ [ep] })]

def proxyUsage (prog : Bytes) : Bytes :=
  bytes "Usage: " ++ prog ++ bytes " [--port PORT] --shard HOST:PORT [--shard HOST:PORT ...]\n" ++
    bytes "  Example: " ++ prog ++ bytes " --port 6379 --shard 127.0.0.1:7000 --shard 127.0.0.1:7001\n"

/-- The endpoints: those of the arguments, or else those of the environment. -/
def proxyShards (env : Option Bytes) (shards : List ShardEndpoint) : Option (Option (List ShardEndpoint)) :=
  if shards.isEmpty then env.elim (some (some [])) kvShards else some (some shards)

/-- `main` of `proxy.cpp`; `env` is `KV_SHARDS`. -/
def proxyMain (prog : Bytes) (env : Option Bytes) (args : List Bytes) : Option (Start ProxyConfig) :=
  match optionLoop proxyOptions {} args with
  | .error code => some (.exit code (proxyUsage prog))
  | .ok config => do
    match ← proxyShards env config.shards with
    | none => return .exit 1 (bytes "invalid KV_SHARDS endpoint\n")
    | some [] => return .exit 1 (bytes "at least one --shard HOST:PORT is required\n" ++ proxyUsage prog)
    | some shards => return .go { config with shards := shards }

structure ClientConfig where
  host : Bytes := bytes "127.0.0.1"
  port : Nat := 6379
  cmd : List Bytes := []
  deriving DecidableEq

/-- The loop of `client.cpp`. It ends at the first argument that is no option, and from there on
all is the command. -/
def clientLoop : ClientConfig → List Bytes → Except Nat ClientConfig
  | config, [] => .ok config
  | config, [arg] => if arg = bytes "--help" then .error 0 else .ok { config with cmd := [arg] }
  | config, arg :: value :: rest =>
    if arg = bytes "-h" then clientLoop { config with host := value } rest
    else if arg = bytes "-p" then
      match parsePort value with
      | none => .error 1
      | some port => clientLoop { config with port := port } rest
    else if arg = bytes "--help" then .error 0
    else .ok { config with cmd := arg :: value :: rest }

def clientUsage (prog : Bytes) : Bytes :=
  bytes "Usage: " ++ prog ++ bytes " [-h HOST] [-p PORT] <command> [args...]\n"

/-- `main` of `client.cpp` up to the call. -/
def clientMain (prog : Bytes) (args : List Bytes) : Start ClientConfig :=
  match clientLoop {} args with
  | .error code => .exit code (clientUsage prog)
  | .ok config => if config.cmd.isEmpty then .exit 1 (clientUsage prog) else .go config

/-- The rest of it, with what `tcp_rpc` returned: `none` for false. The code and the text on
`stderr`. -/
def clientExit (response : Option Buffer) : Option (Nat × Bytes) :=
  match response with
  | none => some (1, bytes "request failed\n")
  | some response =>
    if response.length ≤ 4 then some (1, bytes "request failed\n")
    else do
      let consumed ← printResponse kMaxDepth (response.drop 4)
      if consumed < 0 ∨ consumed.toNat ≠ response.length - 4 then return (1, bytes "invalid response\n")
      else return (if response[4]? = some Tag.err.byte then 1 else 0, [])

end ApexDB
