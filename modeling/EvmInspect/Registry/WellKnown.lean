import EvmInspect.Registry

namespace EvmInspect.WellKnown

def entry (key name description : String) (inputs outputs : List (String × String))
    (effects : Effects) : Entry :=
  let params (rows : List (String × String)) : List Param :=
    rows.map fun (type, name) => ⟨some name, type⟩
  ⟨key, name, description, params inputs, params outputs, effects⟩

def curated : List Entry := [
  entry "balance(address)" "balance"
    "get the balance of the given account"
    [("address", "accountAddress")] [("uint256", "balance")] .read,
  entry "mint(address,uint256)" "mint"
    "mint new tokens"
    [("address", "receiverAddress"), ("uint256", "amount")] [] .mint,
  entry "burn(uint256)" "burn"
    "burn tokens"
    [("uint256", "amount")] [] .burn,
  entry "burn(address,uint256)" "burn"
    "burn tokens"
    [("address", "accountAddress"), ("uint256", "amount")] [] .none,
  entry "transfer(address,uint256)" "transfer"
    "transfer erc20 tokens or a specific erc721 to the given address"
    [("address", "to"), ("uint256", "amount")] [] .transfer,
  entry "transfer(address to, uint256 tokenID)" "transfer"
    "transfer a specific erc721 to the given address"
    [("address", "to"), ("uint256", "tokenID")] [] .transfer,
  entry "transfer(address to, uint256 value)" "transfer"
    "transfer erc20 tokens to the given address"
    [("address", "to"), ("uint256", "value")] [] .transfer,
  entry "transfer(address to, uint256 amount)" "transfer"
    "transfer erc20 tokens to the given address"
    [("address", "to"), ("uint256", "amount")] [] .transfer,
  entry "transferFrom(address,address,uint256)" "transferFrom"
    "transfer tokens from the given address to the given address"
    [("address", "from"), ("address", "to"), ("uint256", "amount")] [] .transfer,
  entry "approve(address,uint256)" "approve"
    ("approve the given address to spend the specified number of tokens " ++
      "on behalf of the message sender")
    [("address", "spender"), ("uint256", "amount")] [] .stateWrite,
  entry "name()" "name"
    "get the name of the token"
    [] [("string", "name")] .read,
  entry "owner()" "owner"
    "get the owner of the contract"
    [] [("address", "owner")] .read,
  entry "symbol()" "symbol"
    "get the symbol of the token"
    [] [("string", "symbol")] .read,
  entry "totalSupply()" "totalSupply"
    "get the total supply of the token"
    [] [("uint256", "totalSupply")] .read,
  entry "decimals()" "decimals"
    "get the number of decimals of the token"
    [] [("uint8", "decimals")] .read,
  entry "balanceOf(address)" "balanceOf"
    "get the balance of the given address"
    [("address", "accountAddress")] [("uint256", "balance")] .read,
  entry "allowance(address,address)" "allowance"
    ("get the number of tokens that the given address is allowed to spend " ++
      "on behalf of the given address")
    [("address", "owner"), ("address", "spender")] [("uint256", "allowance")] .read,
  entry "renounceOwnership()" "renounceOwnership"
    "renounce ownership of the contract"
    [] [] .stateWrite,
  entry "transferOwnership(address)" "transferOwnership"
    "transfer ownership of the contract to the given address"
    [("address", "newOwner")] [] .stateWrite,
  entry "pause()" "pause"
    "pause the contract"
    [] [] .stateWrite,
  entry "unpause()" "unpause"
    "unpause the contract"
    [] [] .stateWrite,
  entry "paused()" "paused"
    "check if the contract is paused"
    [] [("bool", "paused")] .read,
  entry "ownerOf(uint256)" "ownerOf"
    "get the owner of the given token"
    [("uint256", "tokenId")] [("address", "owner")] .read,
  entry "getApproved(uint256)" "getApproved"
    "get the approved address for the given token"
    [("uint256", "tokenId")] [("address", "operator")] .read,
  entry "setApprovalForAll(address,bool)" "setApprovalForAll"
    "set the approval status for the given operator"
    [("address", "operator"), ("bool", "approved")] [] .stateWrite,
  entry "isApprovedForAll(address,address)" "isApprovedForAll"
    "check if the given operator is approved for the given owner"
    [("address", "owner"), ("address", "operator")] [("bool", "approved")] .read,
  entry "safeTransferFrom(address,address,uint256)" "safeTransferFrom"
    "transfer the given token from the given address to the given address"
    [("address", "from"), ("address", "to"), ("uint256", "tokenId")] [] .transfer,
  entry "safeTransferFrom(address,address,uint256,bytes)" "safeTransferFrom"
    "transfer the given token from the given address to the given address"
    [("address", "from"), ("address", "to"), ("uint256", "tokenId"), ("bytes", "data")] []
    .transfer,
  entry "tokenURI(uint256)" "tokenURI"
    "get the URI of the given token"
    [("uint256", "tokenId")] [("string", "tokenURI")] .read,
  entry "supportsInterface(bytes4)" "supportsInterface"
    "check if the contract implements the given interface"
    [("bytes4", "interfaceId")] [("bool", "supported")] .read,
  entry "onERC721Received(address,address,uint256,bytes)" "onERC721Received"
    "handle the receipt of an NFT"
    [("address", "operator"), ("address", "from"), ("uint256", "tokenId"), ("bytes", "data")] []
    .none,
  entry "isOnLegalHold(uint256)" "isOnLegalHold"
    "check if the given token is on legal hold"
    [("uint256", "tokenId")] [("bool", "onHold")] .read,
  entry "putOnLegalHold(uint256)" "putOnLegalHold"
    "put the given token on legal hold"
    [("uint256", "tokenId")] [] .stateWrite,
  entry "releaseLegalHold(uint256)" "releaseLegalHold"
    "release the given token from legal hold"
    [("uint256", "tokenId")] [] .stateWrite]

def roles : List String := [
  "admin", "minter", "pauser", "burner", "signer", "whitelisted",
  "blacklisted", "owner", "operator", "verifier", "legal", "legalOperator",
  "legalHolder", "legalHoldOperator"]

def capitalize (name : String) : String :=
  match name.toList with
  | [] => ""
  | first :: rest => String.ofList (first.toUpper :: rest)

def roleEntries (role : String) : List Entry :=
  let cap := capitalize role
  let account := [("address", "account")]
  let isName := "is" ++ cap
  [ entry ("add" ++ cap ++ "(address)") ("add" ++ cap)
      ("add the given address to the " ++ role ++ " role") account [] .accessControlUpdate,
    entry ("remove" ++ cap ++ "(address)") ("remove" ++ cap)
      ("remove the given address from the " ++ role ++ " role") account [] .accessControlUpdate,
    entry ("renounce" ++ cap ++ "()") ("renounce" ++ cap)
      ("remove the sender from the " ++ role ++ " role") [] [] .accessControlUpdate,
    entry ("has" ++ cap ++ "Role(address)") ("has" ++ cap ++ "Role")
      ("check if the given address has the " ++ role ++ " role") account [("bool", "hasRole")]
      .read,
    entry (isName ++ "()") isName
      ("check if the sender has the " ++ role ++ " role") [] [("bool", isName)] .read,
    entry (isName ++ "(address)") isName
      ("check if the given address has the " ++ role ++ " role") account [("bool", isName)] .read ]

def entries : List Entry :=
  curated ++ roles.flatMap roleEntries

/-- The registry of all entries. Their keys are sound, so that it is never the empty one. -/
def registry : Registry :=
  match Registry.ofEntries entries with
  | .ok registry => registry
  | .error _ => {}

end EvmInspect.WellKnown
