import EvmInspect.Selector

namespace EvmInspect.Builtin

/-- Each known selector once, with its candidate signatures. The standard one of them stands
last. -/
def table : List (Selector × List String) := [
  (⟨0x06, 0xfd, 0xde, 0x03⟩, [
    "transfer_attention_tg_invmru_6e7aa58(bool,address,address)",
    "message_hour(uint256,int8,uint16,bytes32)",
    "name()"]),
  (⟨0x07, 0x53, 0xc3, 0x0c⟩, ["deprecate(address)"]),
  (⟨0x09, 0x5e, 0xa7, 0xb3⟩, [
    "watch_tg_invmru_2f69f1b(address,address)",
    "sign_szabo_bytecode(bytes16,uint128)",
    "approve(address,uint256)"]),
  (⟨0x0e, 0x13, 0x6b, 0x19⟩, ["deprecated()"]),
  (⟨0x0e, 0xcb, 0x93, 0xc0⟩, ["addBlackList(address)"]),
  (⟨0x18, 0x16, 0x0d, 0xdd⟩, [
    "watch_tg_invmru_ae5c248(uint256,bool,bool)",
    "voting_var(address,uint256,int128,int128)",
    "totalSupply()"]),
  (⟨0x23, 0xb8, 0x72, 0xdd⟩, [
    "watch_tg_invmru_faebe36(bool,bool,bool)",
    "gasprice_bit_ether(int128)",
    "transferFrom(address,address,uint256)"]),
  (⟨0x26, 0x97, 0x6e, 0x3f⟩, ["upgradedAddress()"]),
  (⟨0x27, 0xe2, 0x35, 0xe3⟩, ["balances(address)"]),
  (⟨0x31, 0x3c, 0xe5, 0x67⟩, [
    "watch_tg_invmru_5c94e13(bool)",
    "watch_tg_invmru_e597f2(address,bool)",
    "transfer_attention_tg_invmru_efa43f6(uint256,bool,address)",
    "available_assert_time(uint16,uint64)",
    "decimals()"]),
  (⟨0x35, 0x39, 0x07, 0x14⟩, ["maximumFee()"]),
  (⟨0x3e, 0xaa, 0xf8, 0x6b⟩, ["_totalSupply()"]),
  (⟨0x3f, 0x4b, 0xa8, 0x3a⟩, ["unpause()"]),
  (⟨0x59, 0xbf, 0x1a, 0xbe⟩, ["getBlackListStatus(address)"]),
  (⟨0x5c, 0x65, 0x81, 0x65⟩, ["allowed(address,address)"]),
  (⟨0x5c, 0x97, 0x5a, 0xbb⟩, ["paused()"]),
  (⟨0x6e, 0x18, 0x98, 0x0a⟩, ["transferByLegacy(address,address,uint256)"]),
  (⟨0x70, 0xa0, 0x82, 0x31⟩, [
    "watch_tg_invmru_119a5a98(address,uint256,uint256)",
    "passphrase_calculate_transfer(uint64,address)",
    "branch_passphrase_public(uint256,bytes8)",
    "balanceOf(address)"]),
  (⟨0x84, 0x56, 0xcb, 0x59⟩, ["pause()"]),
  (⟨0x89, 0x3d, 0x20, 0xe8⟩, ["getOwner()"]),
  (⟨0x8b, 0x47, 0x7a, 0xdb⟩, ["transferFromByLegacy(address,address,address,uint256)"]),
  (⟨0x8d, 0xa5, 0xcb, 0x5b⟩, ["ideal_warn_timed(uint256,uint128)", "owner()"]),
  (⟨0x95, 0xd8, 0x9b, 0x41⟩, [
    "watch_tg_invmru_4f9dd3f(address,uint256)",
    "link_classic_internal(uint64,int64)",
    "symbol()"]),
  (⟨0xa9, 0x05, 0x9c, 0xbb⟩, [
    "join_tg_invmru_haha_fd06787(address,bool)",
    "func_2093253501(bytes)",
    "transfer(bytes4[9],bytes5[6],int48[11])",
    "many_msg_babbage(bytes1)",
    "transfer(address,uint256)"]),
  (⟨0xae, 0xe9, 0x2d, 0x33⟩, ["approveByLegacy(address,address,uint256)"]),
  (⟨0xc0, 0x32, 0x4c, 0x77⟩, ["setParams(uint256,uint256)"]),
  (⟨0xcc, 0x87, 0x2b, 0x66⟩, ["issue(uint256)"]),
  (⟨0xdb, 0x00, 0x6a, 0x75⟩, ["redeem(uint256)"]),
  (⟨0xdd, 0x62, 0xed, 0x3e⟩, [
    "join_tg_invmru_haha_5911067(uint256,address)",
    "_func_5437782296(address,address)",
    "remove_good(uint256[],bytes8,bool)",
    "allowance(address,address)"]),
  (⟨0xdd, 0x64, 0x4f, 0x72⟩, ["basisPointsRate()"]),
  (⟨0xe4, 0x7d, 0x60, 0x60⟩, ["isBlackListed(address)"]),
  (⟨0xe4, 0x99, 0x7d, 0xc5⟩, ["removeBlackList(address)"]),
  (⟨0xe5, 0xb5, 0x01, 0x9a⟩, ["MAX_UINT()"]),
  (⟨0xf3, 0xbd, 0xc2, 0x28⟩, ["destroyBlackFunds(address)"]),
  (⟨0xff, 0xff, 0xff, 0xff⟩, ["LOCK8605463013()", "test266151307()"]),
  (⟨0xf2, 0xfd, 0xe3, 0x8b⟩, ["transferOwnership(address)"]),
  (⟨0x6f, 0xcf, 0xff, 0x45⟩, ["numCheckpoints(address)"]),
  (⟨0xb4, 0xb5, 0xea, 0x57⟩, ["getCurrentVotes(address)"]),
  (⟨0xe7, 0xa3, 0x24, 0xdc⟩, ["DELEGATION_TYPEHASH()"]),
  (⟨0xf1, 0x12, 0x7e, 0xd8⟩, ["checkpoints(address,uint32)"]),
  (⟨0xfc, 0xa3, 0xb5, 0xaa⟩, ["setMinter(address)"]),
  (⟨0xc3, 0xcd, 0xa5, 0x20⟩, ["delegateBySig(address,uint256,uint256,uint8,bytes32,bytes32)"]),
  (⟨0xd5, 0x05, 0xac, 0xcf⟩, [
    "watch_tg_invmru_168a06(bool,address,bool)",
    "permit(address,address,uint256,uint256,uint8,bytes32,bytes32)"]),
  (⟨0x78, 0x2d, 0x6f, 0xe1⟩, ["getPriorVotes(address,uint256)"]),
  (⟨0x7e, 0xce, 0xbe, 0x00⟩, [
    "transfer_attention_tg_invmru_5811b86(uint256,address,address)",
    "nonces(address)"]),
  (⟨0x76, 0xc7, 0x1c, 0xa1⟩, ["mintCap()"]),
  (⟨0x30, 0xad, 0xf8, 0x1f⟩, [
    "transfer_attention_tg_invmru_6c0d2a(uint256,uint256)",
    "PERMIT_TYPEHASH()"]),
  (⟨0x40, 0xc1, 0x0f, 0x19⟩, ["mint(address,uint256)"]),
  (⟨0x58, 0x7c, 0xde, 0x1e⟩, ["delegates(address)"]),
  (⟨0x5c, 0x11, 0xd6, 0x2f⟩, ["minimumTimeBetweenMints()"]),
  (⟨0x5c, 0x19, 0xa9, 0x5c⟩, ["delegate(address)"]),
  (⟨0x30, 0xb3, 0x6c, 0xef⟩, ["mintingAllowedAfter()"]),
  (⟨0x20, 0x60, 0x6b, 0x70⟩, ["DOMAIN_TYPEHASH()"]),
  (⟨0x07, 0x54, 0x61, 0x72⟩, ["minter()"]),
  (⟨0x01, 0xff, 0xc9, 0xa7⟩, ["pizza_mandate_apology(uint256)", "supportsInterface(bytes4)"]),
  (⟨0x8f, 0x32, 0xd5, 0x9b⟩, ["isOwner()"]),
  (⟨0xd6, 0xe4, 0xfa, 0x86⟩, ["nameExpires(uint256)"]),
  (⟨0xe9, 0x85, 0xe9, 0xc5⟩, ["isApprovedForAll(address,address)"]),
  (⟨0xf6, 0xa7, 0x4e, 0xd7⟩, ["removeController(address)"]),
  (⟨0xfc, 0xa2, 0x47, 0xac⟩, ["register(uint256,address,uint256)"]),
  (⟨0xda, 0x8c, 0x22, 0x9e⟩, ["controllers(address)"]),
  (⟨0xdd, 0xf7, 0xfc, 0xb0⟩, ["baseNode()"]),
  (⟨0xa7, 0xfc, 0x7a, 0x07⟩, ["addController(address)"]),
  (⟨0xb8, 0x8d, 0x4f, 0xde⟩, ["safeTransferFrom(address,address,uint256,bytes)"]),
  (⟨0xc1, 0xa2, 0x87, 0xe2⟩, ["GRACE_PERIOD()"]),
  (⟨0xc4, 0x75, 0xab, 0xff⟩, ["renew(uint256,uint256)"]),
  (⟨0x96, 0xe4, 0x94, 0xe8⟩, ["available(uint256)"]),
  (⟨0xa2, 0x2c, 0xb4, 0x65⟩, [
    "niceFunctionHerePlzClick943230089(address,bool)",
    "setApprovalForAll(address,bool)"]),
  (⟨0x3f, 0x15, 0x45, 0x7f⟩, ["ens()"]),
  (⟨0x63, 0x52, 0x21, 0x1e⟩, ["ownerOf(uint256)"]),
  (⟨0x71, 0x50, 0x18, 0xa6⟩, ["renounceOwnership()"]),
  (⟨0x42, 0x84, 0x2e, 0x0e⟩, ["safeTransferFrom(address,address,uint256)"]),
  (⟨0x4e, 0x54, 0x3b, 0x26⟩, ["setResolver(address)"]),
  (⟨0x08, 0x18, 0x12, 0xfc⟩, ["getApproved(uint256)"]),
  (⟨0x0e, 0x29, 0x7b, 0x45⟩, ["registerOnly(uint256,address,uint256)"]),
  (⟨0x28, 0xed, 0x4f, 0x6c⟩, ["reclaim(uint256,address)"]),
  (⟨0x02, 0x57, 0x1b, 0xe3⟩, ["owner(bytes32)"]),
  (⟨0x06, 0xab, 0x59, 0x23⟩, ["setSubnodeOwner(bytes32,bytes32,address)"]),
  (⟨0x18, 0x96, 0xf7, 0x0a⟩, ["setResolver(bytes32,address)"]),
  (⟨0x15, 0x0b, 0x7a, 0x02⟩, ["onERC721Received(address,address,uint256,bytes)"])]

def candidates? (s : Selector) : Option (List String) :=
  table.lookup s

theorem nodup_selectors : (table.map Prod.fst).Nodup := by
  decide +kernel

end EvmInspect.Builtin
